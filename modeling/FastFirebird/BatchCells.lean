import FastFirebird.BatchValues

/-! What the BLR of a batch message describes, how long the message is, and one cell of a row. -/
namespace FastFirebird.Msgcodec.BatchMessage

/-! What is described -/

/-- The field of a described input. -/
def messageField (d : SqlVarDesc) : MessageField :=
  match batchCase d.type with
  | some .text => .varying (textCap d)
  | some .long => .long d.scale
  | some .int64 => .int64 d.scale
  | some .int128 => .int128 d.scale
  | some .float => .float
  | some .double => .double
  | some .timestamp => .timestamp
  | some .timestamp_tz => .timestamp_tz
  | some .time_tz => .sql_time_tz
  | some .blob => .blob2 (d.subType % 65536).toNat (d.scale % 256).toNat
  | some .quad => .quad
  | some .dec16 => .dec64
  | some .dec34 => .dec128
  | some .boolean | none => .bool

namespace MessageField

/-- What describes a field, its null indicator with it. -/
def descriptor : MessageField → Bytes
  | varying n => [Blr.varying, UInt8.ofNat n, UInt8.ofNat (n >>> 8), Blr.short, 0]
  | long scale => [Blr.long, scaleByte scale, Blr.short, 0]
  | int64 scale => [Blr.int64, scaleByte scale, Blr.short, 0]
  | int128 scale => [Blr.int128, scaleByte scale, Blr.short, 0]
  | float => [Blr.float, Blr.short, 0]
  | double => [Blr.double, Blr.short, 0]
  | timestamp => [Blr.timestamp, Blr.short, 0]
  | timestamp_tz => [Blr.timestamp_tz, Blr.short, 0]
  | sql_time_tz => [Blr.sql_time_tz, Blr.short, 0]
  | blob2 subType charset =>
    [Blr.blob2, UInt8.ofNat subType, UInt8.ofNat (subType >>> 8), UInt8.ofNat charset,
      UInt8.ofNat (charset >>> 8), Blr.short, 0]
  | quad => [Blr.quad, 0, Blr.short, 0]
  | dec64 => [Blr.dec64, Blr.short, 0]
  | dec128 => [Blr.dec128, Blr.short, 0]
  | bool => [Blr.bool, Blr.short, 0]

/-- A scale that a signed byte holds. -/
def ScaleFits (scale : Int) : Prop := -128 ≤ scale ∧ scale < 128

/-- A length goes into its word, a scale into its byte. -/
def Short : MessageField → Prop
  | varying n => n < 65536
  | long scale | int64 scale | int128 scale => ScaleFits scale
  | blob2 subType charset => subType < 65536 ∧ charset < 65536
  | _ => True

instance (scale : Int) : Decidable (ScaleFits scale) := inferInstanceAs (Decidable (_ ∧ _))

instance : (f : MessageField) → Decidable f.Short
  | varying n => inferInstanceAs (Decidable (n < 65536))
  | long scale | int64 scale | int128 scale => inferInstanceAs (Decidable (ScaleFits scale))
  | blob2 _ _ => inferInstanceAs (Decidable (_ ∧ _))
  | float | double | timestamp | timestamp_tz | sql_time_tz | quad | dec64 | dec128 | bool =>
    inferInstanceAs (Decidable True)

/-- Alignments are powers of two up to eight. -/
theorem alignment_pow (f : MessageField) : ∃ k ≤ 3, f.extent.alignment = 2 ^ k := by
  cases f with
  | varying n => exact ⟨1, by decide, rfl⟩
  | long scale => exact ⟨2, by decide, rfl⟩
  | int64 scale => exact ⟨3, by decide, rfl⟩
  | int128 scale => exact ⟨3, by decide, rfl⟩
  | float => exact ⟨2, by decide, rfl⟩
  | double => exact ⟨3, by decide, rfl⟩
  | timestamp => exact ⟨2, by decide, rfl⟩
  | timestamp_tz => exact ⟨2, by decide, rfl⟩
  | sql_time_tz => exact ⟨2, by decide, rfl⟩
  | blob2 subType charset => exact ⟨2, by decide, rfl⟩
  | quad => exact ⟨2, by decide, rfl⟩
  | dec64 => exact ⟨3, by decide, rfl⟩
  | dec128 => exact ⟨3, by decide, rfl⟩
  | bool => exact ⟨0, by decide, rfl⟩

theorem alignment_pos (f : MessageField) : 0 < f.extent.alignment := by
  obtain ⟨k, -, hk⟩ := f.alignment_pow
  rw [hk]
  exact Nat.two_pow_pos k

end MessageField

theorem wordAt_ofNat {n : Nat} (h : n < 65536) :
    wordAt (UInt8.ofNat n) (UInt8.ofNat (n >>> 8)) = n := by
  rw [wordAt, word_value]
  exact Nat.mod_eq_of_lt h

theorem wordAt_lt (low high : UInt8) : wordAt low high < 65536 := by
  have hlow := low.toNat_lt
  have hhigh := high.toNat_lt
  rw [wordAt]
  omega

theorem scaleByte_value {scale : Int} (h : MessageField.ScaleFits scale) :
    (scaleByte scale).toBitVec.toInt = scale :=
  BitVec.toInt_ofInt_eq_self (by decide) h.1 h.2

theorem scaleFits_toInt (byte : UInt8) : MessageField.ScaleFits byte.toBitVec.toInt :=
  ⟨BitVec.le_toInt byte.toBitVec, BitVec.toInt_lt⟩

theorem parseMessageField_descriptor {f : MessageField} (h : f.Short) (rest : Bytes) :
    ∃ middle, parseMessageField (f.descriptor ++ rest) = some (f, middle) ∧
      parseNullSlot middle = some rest ∧ f.descriptor ++ rest ≠ [Blr.end_, Blr.eoc] := by
  have hslot : parseNullSlot (Blr.short :: 0 :: rest) = some rest := rfl
  refine ⟨Blr.short :: 0 :: rest, ?_, hslot, ?_⟩
  · cases f with
    | varying n =>
      show some (MessageField.varying (wordAt _ _), _) = _
      rw [wordAt_ofNat h]
      rfl
    | blob2 subType charset =>
      show some (MessageField.blob2 (wordAt _ _) (wordAt _ _), _) = _
      rw [wordAt_ofNat h.1, wordAt_ofNat h.2]
      rfl
    | long scale =>
      show some (MessageField.long (scaleByte scale).toBitVec.toInt, _) = _
      rw [scaleByte_value h]
      rfl
    | int64 scale =>
      show some (MessageField.int64 (scaleByte scale).toBitVec.toInt, _) = _
      rw [scaleByte_value h]
      rfl
    | int128 scale =>
      show some (MessageField.int128 (scaleByte scale).toBitVec.toInt, _) = _
      rw [scaleByte_value h]
      rfl
    | float => rfl
    | double => rfl
    | timestamp => rfl
    | timestamp_tz => rfl
    | sql_time_tz => rfl
    | quad => rfl
    | dec64 => rfl
    | dec128 => rfl
    | bool => rfl
  · intro heq
    cases f <;> exact absurd (List.cons.inj heq).1 (by decide)

theorem parseMessageFields_descriptors {fields : List MessageField} (h : ∀ f ∈ fields, f.Short) :
    ∀ fuel, fields.length < fuel →
      parseMessageFields fuel (fields.flatMap MessageField.descriptor ++ [Blr.end_, Blr.eoc]) =
        some fields := by
  induction fields with
  | nil =>
    intro fuel hfuel
    obtain ⟨k, rfl⟩ := Nat.exists_eq_succ_of_ne_zero (by omega : fuel ≠ 0)
    rfl
  | cons f fields ih =>
    intro fuel hfuel
    rw [List.length_cons] at hfuel
    obtain ⟨k, rfl⟩ := Nat.exists_eq_succ_of_ne_zero (by omega : fuel ≠ 0)
    have hrest := ih (fun g hg => h g (List.mem_cons_of_mem f hg)) k (by omega)
    obtain ⟨middle, hfield, hslot, hfooter⟩ := parseMessageField_descriptor (h f List.mem_cons_self)
      (fields.flatMap MessageField.descriptor ++ [Blr.end_, Blr.eoc])
    rw [List.flatMap_cons, List.append_assoc, parseMessageFields, if_neg hfooter, hfield]
    simp only [Option.bind_eq_bind, Option.bind_some, hslot, hrest]
    rfl

theorem length_descriptors (fields : List MessageField) :
    fields.length ≤ (fields.flatMap MessageField.descriptor).length := by
  induction fields with
  | nil => exact Nat.le_refl _
  | cons f fields ih =>
    have hpos : 1 ≤ f.descriptor.length := by
      cases f <;> exact Nat.succ_le_succ (Nat.zero_le _)
    rw [List.flatMap_cons, List.length_append, List.length_cons]
    omega

/-- Whatever is parsed came out of words and bytes. -/
theorem parseMessageField_short {bytes rest : Bytes} {f : MessageField}
    (h : parseMessageField bytes = some (f, rest)) : f.Short := by
  cases bytes with
  | nil => cases h
  | cons code behind =>
  simp only [parseMessageField] at h
  by_cases hvarying : code = Blr.varying
  · rw [if_pos hvarying] at h
    match behind, h with
    | low :: high :: _, h =>
      cases h
      exact wordAt_lt low high
  rw [if_neg hvarying] at h
  by_cases hblob : code = Blr.blob2
  · rw [if_pos hblob] at h
    match behind, h with
    | low :: high :: low' :: high' :: _, h =>
      cases h
      exact ⟨wordAt_lt low high, wordAt_lt low' high'⟩
  rw [if_neg hblob] at h
  by_cases hquad : code = Blr.quad
  · rw [if_pos hquad] at h
    match behind, h with
    | scale :: _, h =>
      obtain ⟨-, heq⟩ := Option.ite_none_right_eq_some.mp h
      cases heq
      trivial
  rw [if_neg hquad] at h
  by_cases hexact : code = Blr.long ∨ code = Blr.int64 ∨ code = Blr.int128
  · rw [if_pos hexact] at h
    match behind, h with
    | scale :: _, h =>
      have hscale := scaleFits_toInt scale
      obtain ⟨rfl, -⟩ := Prod.mk.inj (Option.some.inj h)
      split
      · exact hscale
      split
      · exact hscale
      · exact hscale
  rw [if_neg hexact] at h
  -- the others have neither a length nor a scale
  simp only [ite_eq_iff] at h
  iterate 8
    obtain ⟨-, h⟩ | ⟨-, h⟩ := h
    · cases h
      trivial
  cases h

theorem parseMessageFields_short : ∀ {fuel : Nat} {bytes : Bytes} {fields : List MessageField},
    parseMessageFields fuel bytes = some fields → ∀ f ∈ fields, f.Short := by
  intro fuel
  induction fuel with
  | zero =>
    intro bytes fields h
    cases h
  | succ fuel ih =>
    intro bytes fields h
    rw [parseMessageFields] at h
    split at h
    · cases h
      exact fun f hf => nomatch hf
    · obtain ⟨⟨field, middle⟩, hfield, h⟩ := Option.bind_eq_some_iff.mp h
      obtain ⟨rest, hslot, h⟩ := Option.bind_eq_some_iff.mp h
      obtain ⟨fields', hfields, h⟩ := Option.bind_eq_some_iff.mp h
      cases h
      exact List.forall_mem_cons.mpr ⟨parseMessageField_short hfield, ih hfields⟩

/-! The length -/

section Length
variable {offset bound : Nat} {e : Extent}

theorem addField_eq {k : Nat} (hk : k ≤ 3) (halign : e.alignment = 2 ^ k)
    (hoffset : offset ≤ 2 ^ 31 - 8) (hplace : e.place offset ≤ 2 ^ 31 - 8) :
    addField offset e = e.place offset := by
  have hpow : 2 ^ k ≤ 2 ^ 3 := Nat.pow_le_pow_right Nat.two_pos hk
  have hstart : (if 1 < e.alignment then fbAlign offset e.alignment else (offset : Int)) =
      alignUp offset e.alignment := by
    split
    · rw [halign]
      exact fbAlign_eq (by omega) (by omega)
    · have hone : e.alignment = 1 := by
        have hpos := Nat.two_pow_pos k
        omega
      rw [hone, alignUp_one]
  have hend : fbAlign ((alignUp offset e.alignment + e.size : Nat) : Int) (2 ^ 1) =
      alignUp (alignUp offset e.alignment + e.size) (2 ^ 1) := by
    apply fbAlign_eq (by decide)
    have hle := le_alignUp (n := alignUp offset e.alignment + e.size) Nat.two_pos
    unfold Extent.place at hplace
    omega
  simp only [addField, hstart]
  rw [← Nat.cast_add]
  exact (congrArg (· + 2) hend).trans (by rw [Extent.place]; rfl)

/-- As long as the message fits, the length that the loop counts is that of the engine. -/
theorem foldl_addField {fields : List MessageField} : ∀ {offset : Nat},
    layoutEnd offset (fields.map MessageField.extent) ≤ 2 ^ 31 - 8 →
    (fields.map MessageField.extent).foldl addField (offset : Int) =
      layoutEnd offset (fields.map MessageField.extent) := by
  induction fields with
  | nil => exact fun _ => rfl
  | cons f fields ih =>
    intro offset hfits
    have hbehind : ∀ e ∈ fields.map MessageField.extent, 0 < e.alignment := by
      intro e he
      obtain ⟨g, -, rfl⟩ := List.mem_map.mp he
      exact g.alignment_pos
    have hplace : f.extent.place offset ≤ 2 ^ 31 - 8 :=
      Nat.le_trans (le_layoutEnd hbehind _) hfits
    have hoffset : offset ≤ 2 ^ 31 - 8 :=
      Nat.le_trans (Extent.le_place f.alignment_pos) hplace
    obtain ⟨k, hk, halign⟩ := f.alignment_pow
    rw [List.map_cons, List.foldl_cons, addField_eq hk halign hoffset hplace]
    exact ih hfits

end Length

/-! One cell -/

variable {host : MessageHost} {client : Zone}

/-- The bytes are read as what the value is in its column if it fits, and only then. -/
structure CellReads (host : MessageHost) (client : Zone) (i : Nat) (d : SqlVarDesc) (c : BatchCase)
    (v : ParamValue) (bytes : Bytes) : Prop where
  back : CaseFits host client d c v → ∃ value, CellValue host client i d c v value ∧
    ∀ rest, readMessageField (messageField d) (bytes ++ rest) = some (value, rest)
  only : ∀ value rest rest', CellValue host client i d c v value →
    readMessageField (messageField d) (bytes ++ rest) = some (value, rest') →
      CaseFits host client d c v

theorem CellReads.plain {i : Nat} {d : SqlVarDesc} {c : BatchCase} {v : ParamValue}
    {f : MessageField} {value : RowValue} {bytes : Bytes} (hfield : messageField d = f)
    (hfits : CaseFits host client d c v) (hvalue : CellValue host client i d c v value)
    (h : ∀ rest, readMessageField f (bytes ++ rest) = some (value, rest)) :
    CellReads host client i d c v bytes := by
  rw [← hfield] at h
  exact ⟨fun _ => ⟨value, hvalue, h⟩, fun _ _ _ _ _ => hfits⟩

/-- What a writer appends for a value of the column. -/
def CellWritten (host : MessageHost) (client : Zone) (i : Nat) (d : SqlVarDesc) (v : ParamValue)
    (w w' : XdrWriter) : Prop :=
  ∃ c bytes, batchCase d.type = some c ∧ w'.buf = w.buf ++ bytes ∧
    CellReads host client i d c v bytes

section Cell
variable {i : Nat} {d : SqlVarDesc} {v : ParamValue} {w w' : XdrWriter} {ctx : String}

theorem textBytes_value {bytes : Bytes} (h : textBytes host i v ctx = .ok bytes) :
    WellSized host.toEncodeHost v ∧ TextValue host i v bytes := by
  cases v with
  | string text => exact ⟨trivial, .string h⟩
  | buffer b =>
    cases h
    exact ⟨trivial, .buffer _⟩
  | number x =>
    cases h
    exact ⟨trivial, .number x⟩
  | bigint n =>
    cases h
    exact ⟨trivial, .bigint n⟩
  | boolean b =>
    have hbytes : latin1 (toString b).toList =
        latin1 (if b then "true".toList else "false".toList) := by
      cases b <;> rfl
    cases h
    rw [← hbytes]
    exact ⟨trivial, .boolean b⟩
  | _ => cases h

theorem scaledInteger_sized {fracDigits n : Int}
    (h : scaledInteger host v fracDigits ctx = .ok n) : WellSized host.toEncodeHost v := by
  cases v with
  | zonedDate date zone =>
    unfold scaledInteger at h
    split at h <;> cases h
  | blobRef id =>
    unfold scaledInteger at h
    split at h <;> cases h
  | _ => trivial

/-- A blank text is taken for a number too. -/
theorem asNumber_value {x : Double} (h : asNumber host v ctx = .ok x) :
    WellSized host.toEncodeHost v ∧
      ((∀ text, v = .string text → trim text ≠ []) → FloatValue host v x) ∧
        ∀ y, FloatValue host v y → ∀ text, v = .string text → trim text ≠ [] := by
  cases v with
  | number y =>
    cases h
    exact ⟨trivial, fun _ => .number _, by rintro y - text ⟨⟩⟩
  | bigint n =>
    cases h
    exact ⟨trivial, fun _ => .bigint n, by rintro y - text ⟨⟩⟩
  | string text =>
    have hx : host.ofText text = x := by
      unfold asNumber at h
      dsimp only at h
      split at h
      · cases h
      · exact Except.ok.inj h
    rw [← hx]
    refine ⟨trivial, fun hblank => .string (hblank text rfl), ?_⟩
    intro y hy text' htext
    cases htext
    cases hy with
    | string hsolid => exact hsolid
  | _ => cases h

theorem reads_varying {cap : Nat} {data : Bytes} (hcap : cap < 65536) (hlen : data.length ≤ cap)
    (rest : Bytes) :
    readMessageField (.varying cap) (bigEndian 4 (Number.int data.length).toUint32 ++
      (data ++ List.replicate (padded data.length - data.length) 0) ++ rest) =
      some (.text data, rest) := by
  have hlength : (Number.int data.length).toUint32 = data.length := by
    show (BitVec.ofInt 32 (data.length : Int)).toNat = data.length
    rw [BitVec.ofInt_natCast, BitVec.toNat_ofNat, Nat.mod_eq_of_lt]
    omega
  have hread := @readPadded_append data (List.replicate (padded data.length - data.length) 0)
    (by rw [List.length_replicate, padded_filler]) rest
  have hfront := readUint32_append (.int data.length)
    (data ++ List.replicate (padded data.length - data.length) 0 ++ rest)
  rw [hlength] at hfront
  rw [hlength, List.append_assoc, readMessageField, hfront]
  simp only [Option.bind_eq_bind, Option.bind_some, if_neg (Nat.not_lt.mpr hlen), hread,
    Option.map_some]

theorem reads_wide {v : Int} {high : Bytes} (h : int64Octets (v >>> (64 : Nat)) = .ok high)
    (rest : Bytes) :
    readInt128 (high ++ bigEndian 8 (BitVec.ofInt 64 v).toNat ++ rest) = some (v, rest) := by
  have hread := reads_int128 h rest
  simp only [readField] at hread
  obtain ⟨⟨n, rest'⟩, hn, heq⟩ := Option.map_eq_some_iff.mp hread
  cases heq
  exact hn

theorem text_written (hcase : batchCase d.type = some .text) (hcap : textCap d < 65536)
    (h : textWriter host i (textCap d) ("Batch parameter " ++ toString (i + 1)) v w = .ok w') :
    CellWritten host client i d v w w' := by
  obtain ⟨data, hdata, h⟩ := bind_ok h
  split at h
  · cases h
  · rename_i hlen
    obtain ⟨hsized, hvalue⟩ := textBytes_value hdata
    have hfield : messageField d = .varying (textCap d) := by rw [messageField, hcase]
    refine ⟨.text, bigEndian 4 (Number.int data.length).toUint32 ++
      (data ++ List.replicate (padded data.length - data.length) 0), hcase, ?_, ?_⟩
    · cases h
      exact List.append_assoc _ _ _
    · apply CellReads.plain hfield _ (.text hvalue) (reads_varying hcap (Nat.not_lt.mp hlen))
      exact .of_sized hsized (by decide) (by decide) (by decide) (by decide)

/-- The exact numbers have one writer, for each of the three widths. -/
theorem exact_written {c : BatchCase} {field : Int → MessageField} {min max : Int}
    {write : Int → XdrWriter → Except FirebirdError XdrWriter}
    (hruns : Runs host client) (htext : ∀ text, v = .string text → text.length < 2 ^ 40)
    (hcase : batchCase d.type = some c) (hexact : c.IsExact)
    (hfield : messageField d = field d.scale) (hscale : MessageField.ScaleFits d.scale)
    (hbounds : -2 ^ 127 ≤ min ∧ max ≤ 2 ^ 127)
    (hwrite : ∀ n, min ≤ n → n ≤ max → ∀ w w', write n w = .ok w' → ∃ bytes,
      w'.buf = w.buf ++ bytes ∧ ∀ rest,
        readMessageField (field d.scale) (bytes ++ rest) = some (.exact n d.scale, rest))
    (h : exactWriter host d min max ("Batch parameter " ++ toString (i + 1)) write v w = .ok w') :
    CellWritten host client i d v w w' := by
  obtain ⟨n, hn, hranged⟩ := bind_ok h
  obtain ⟨m, hm, hwritten⟩ := bind_ok hranged
  obtain ⟨rfl, hlow, hhigh⟩ := checkRange_ok hm
  obtain ⟨bytes, hbytes, hreads⟩ := hwrite m hlow hhigh w w' hwritten
  obtain ⟨x, hx, hkept⟩ := scaledInteger_exact hruns htext hscale hn (by omega)
  refine ⟨c, bytes, hcase, hbytes, ⟨fun hfits => ?_, fun value rest rest' hvalue hread => ?_⟩⟩
  · rw [hfield]
    refine ⟨_, ?_, hreads⟩
    rw [hkept.mpr (hfits.exact hexact)]
    exact .exact hexact hx
  · rw [hfield, hreads] at hread
    obtain rfl := (Prod.mk.inj (Option.some.inj hread)).1
    have hround : m = roundHalfAway (x * 10 ^ (-d.scale)) := by
      generalize hcell : RowValue.exact m d.scale = value at hvalue
      cases hvalue with
      | exact _ hy =>
        rw [hx.unique hy]
        injection hcell
      | _ => cases hcell
    have hplain : c ≠ .float ∧ c ≠ .double ∧ c ≠ .timestamp ∧ c ≠ .timestamp_tz ∧ c ≠ .time_tz := by
      rcases hexact with rfl | rfl | rfl <;> decide
    refine ⟨scaledInteger_sized hn, fun _ => hkept.mp hround, fun h => ?_, fun h => ?_, fun h => ?_⟩
    · rcases h with h | h
      · exact absurd h hplain.1
      · exact absurd h hplain.2.1
    · exact absurd h hplain.2.2.1
    · rcases h with h | h
      · exact absurd h hplain.2.2.2.1
      · exact absurd h hplain.2.2.2.2

theorem long_bytes {d : SqlVarDesc} (n : Int) (hlow : INT32_MIN ≤ n) (hhigh : n ≤ INT32_MAX)
    (w w' : XdrWriter) (hwrite : Except.ok (w.int32 (.int n)) = (.ok w' : Except FirebirdError _)) :
    ∃ bytes, w'.buf = w.buf ++ bytes ∧ ∀ rest,
      readMessageField (.long d.scale) (bytes ++ rest) = some (.exact n d.scale, rest) := by
  cases hwrite
  refine ⟨_, rfl, fun rest => ?_⟩
  simp only [readMessageField, int32_field hlow hhigh, Option.map_some]

theorem int64_bytes {d : SqlVarDesc} (n : Int) (w w' : XdrWriter) (hwrite : w.bigInt64 n = .ok w') :
    ∃ bytes, w'.buf = w.buf ++ bytes ∧ ∀ rest,
      readMessageField (.int64 d.scale) (bytes ++ rest) = some (.exact n d.scale, rest) := by
  simp only [XdrWriter.bigInt64] at hwrite
  cases hoctets : int64Octets n with
  | error e =>
    rw [hoctets] at hwrite
    cases hwrite
  | ok octets =>
    rw [hoctets] at hwrite
    cases hwrite
    obtain ⟨hlen, hsigned⟩ := int64Octets_read hoctets
    refine ⟨octets, rfl, fun rest => ?_⟩
    simp only [readMessageField, readInt64, readBytes_append hlen, Option.map_some, hsigned]

theorem int128_bytes {d : SqlVarDesc} (n : Int) (w w' : XdrWriter)
    (hwrite : int128Writer n w = .ok w') : ∃ bytes, w'.buf = w.buf ++ bytes ∧ ∀ rest,
      readMessageField (.int128 d.scale) (bytes ++ rest) = some (.exact n d.scale, rest) := by
  obtain ⟨high, hoctets, hwrite⟩ := bind_ok hwrite
  cases hwrite
  refine ⟨_, rfl, fun rest => ?_⟩
  simp only [readMessageField, reads_wide hoctets, Option.map_some]

/-- Floating-point numbers go in as their bytes. -/
theorem floating_written {c : BatchCase} {f : MessageField} {value : RowValue} {x : Double}
    {bytes : Bytes} (hcase : batchCase d.type = some c) (hc : c = .float ∨ c = .double)
    (hfield : messageField d = f)
    (hvalue : FloatValue host v x → CellValue host client i d c v value)
    (hback : ∀ value', CellValue host client i d c v value' → ∃ y, FloatValue host v y)
    (hx : asNumber host v ("Batch parameter " ++ toString (i + 1)) = .ok x)
    (hread : ∀ rest, readMessageField f (bytes ++ rest) = some (value, rest)) :
    CellWritten host client i d v w (w.raw bytes) := by
  obtain ⟨hsized, hback', honly⟩ := asNumber_value hx
  have hplain : ¬ c.IsExact ∧ c ≠ .timestamp ∧ ¬ (c = .timestamp_tz ∨ c = .time_tz) := by
    rcases hc with rfl | rfl <;> decide
  refine ⟨c, bytes, hcase, rfl, ⟨fun hfits => ?_, fun value' rest rest' hvalue' _ => ?_⟩⟩
  · rw [hfield]
    exact ⟨value, hvalue (hback' (hfits.float hc)), hread⟩
  · obtain ⟨y, hy⟩ := hback value' hvalue'
    exact ⟨hsized, fun h => absurd h hplain.1, fun _ => honly y hy, fun h => absurd h hplain.2.1,
      fun h => absurd h hplain.2.2⟩

theorem float_written (hcase : batchCase d.type = some .float) {x : Double}
    (hx : asNumber host v ("Batch parameter " ++ toString (i + 1)) = .ok x) :
    CellWritten host client i d v w (w.raw (bigEndian 4 (host.floatBits x).toNat)) := by
  have hfield : messageField d = .float := by rw [messageField, hcase]
  have hbits : ofBigEndian (bigEndian 4 (host.floatBits x).toNat) = (host.floatBits x).toNat :=
    ofBigEndian_bigEndian_of_lt (host.floatBits x).toNat_lt
  refine floating_written hcase (Or.inl rfl) hfield .float ?_ hx fun rest => ?_
  · intro value' hvalue'
    cases hvalue' with
    | float h => exact ⟨_, h⟩
    | exact hc => exact absurd hc (by decide)
    | quad hc => exact absurd hc (by decide)
    | decimal hc => exact absurd hc (by decide)
  · simp only [readMessageField, readBytes_append (length_bigEndian 4 _), Option.map_some, hbits,
      UInt32.ofNat_toNat]

theorem double_written (hcase : batchCase d.type = some .double) {x : Double}
    (hx : asNumber host v ("Batch parameter " ++ toString (i + 1)) = .ok x) :
    CellWritten host client i d v w (w.raw (bigEndian 8 x.bits.toNat)) := by
  have hfield : messageField d = .double := by rw [messageField, hcase]
  have hbits : ofBigEndian (bigEndian 8 x.bits.toNat) = x.bits.toNat :=
    ofBigEndian_bigEndian_of_lt x.bits.toNat_lt
  refine floating_written hcase (Or.inr rfl) hfield .double ?_ hx fun rest => ?_
  · intro value' hvalue'
    cases hvalue' with
    | double h => exact ⟨_, h⟩
    | exact hc => exact absurd hc (by decide)
    | quad hc => exact absurd hc (by decide)
    | decimal hc => exact absurd hc (by decide)
  · simp only [readMessageField, readBytes_append (length_bigEndian 8 _), Option.map_some, hbits,
      UInt64.ofNat_toNat]

theorem timestamp_written (hruns : Runs host client) (hcase : batchCase d.type = some .timestamp)
    (h : batchWriter host.toBatchHost i .timestamp v w = .ok w') :
    CellWritten host client i d v w w' := by
  cases v with
  | date date =>
    cases h
    have hfield : messageField d = .timestamp := by rw [messageField, hcase]
    have hread (rest : Bytes) : readMessageField .timestamp
        (bigEndian 4 (encodeTimestamp host.toEncodeHost date).1.toUint32 ++
          bigEndian 4 (encodeTimestamp host.toEncodeHost date).2.toUint32 ++ rest) =
        some (.timestamp (encodeTimestamp host.toEncodeHost date).1.toInt32.toInt
          (encodeTimestamp host.toEncodeHost date).2.toUint32, rest) := by
      simp only [readMessageField, List.append_assoc, readInt32_append, readUint32_append,
        Option.bind_eq_bind, Option.bind_some]
      rfl
    refine ⟨.timestamp, bigEndian 4 (encodeTimestamp host.toEncodeHost date).1.toUint32 ++
      bigEndian 4 (encodeTimestamp host.toEncodeHost date).2.toUint32, hcase,
      List.append_assoc _ _ _, ⟨fun hfits => ?_, ?_⟩⟩
    · have hnaive := hfits.naive rfl date rfl
      have ⟨t, ht, _⟩ := hnaive
      obtain ⟨hfractions, hdays⟩ := encodeTimestamp_kept hruns ht
      rw [hfield]
      refine ⟨_, ?_, hread⟩
      rw [hdays.mpr hnaive, hfractions]
      exact .timestamp ht
    · intro value rest rest' hvalue hback
      rw [hfield, hread] at hback
      obtain rfl := (Prod.mk.inj (Option.some.inj hback)).1
      have hnaive : NaiveDate client date := by
        generalize hcell : RowValue.timestamp _ _ = value at hvalue
        cases hvalue with
        | timestamp ht =>
          obtain ⟨-, hdays⟩ := encodeTimestamp_kept hruns ht
          apply hdays.mp
          injection hcell
        | _ => cases hcell
      have hsized : WellSized host.toEncodeHost (.date date) := trivial
      refine ⟨hsized, fun h => absurd h (by decide), fun h => absurd h (by decide), ?_,
        fun h => absurd h (by decide)⟩
      rintro - _ ⟨⟩
      exact hnaive
  | _ => cases h

/-- Both writers for a time zone take the same values. -/
theorem zoned_accepted (write : JsDate → Number → XdrWriter) {reject : FirebirdError}
    (h : (match v with
      | .zonedDate date zone => (do
        let tzId ← zoneToTzId host.toEncodeHost zone
        return write date tzId)
      | .date d => .ok (write d (.int TZ_ID_UTC_OFFSET))
      | _ => .error reject) = Except.ok w') :
    ∃ date tzId, dateOf v = some date ∧ w' = write date tzId ∧
      (∀ t, date.time = some t → ZonedValue host v t tzId) ∧
        ∀ t k, ZonedValue host v t k → k = tzId ∧ date.time = some t := by
  cases v with
  | date d =>
    cases h
    refine ⟨d, _, rfl, rfl, fun t ht => .utc ht, ?_⟩
    rintro t k ⟨ht, _⟩
    exact ⟨rfl, by assumption⟩
  | zonedDate date zone =>
    obtain ⟨tzId, hzone, h⟩ := bind_ok h
    cases h
    refine ⟨date, tzId, rfl, rfl, fun t ht => .zoned ht hzone, ?_⟩
    intro t k hvalue
    cases hvalue with
    | zoned ht hzone' => exact ⟨Except.ok.inj (hzone'.symm.trans hzone), ht⟩
  | _ => cases h

/-- The id of a zone is read as its lower sixteen bits. -/
theorem wellSized_zone {date : JsDate} {tzId : Number} {t : Int} (hdate : dateOf v = some date)
    (hz : ZonedValue host v t tzId) : WellSized host.toEncodeHost v ↔
      Number.int ((tzId.toUint32 % 65536 : Nat) : Int) = tzId := by
  cases hz with
  | utc ht => exact iff_of_true trivial rfl
  | zoned ht hzone =>
    constructor
    · intro hsize
      obtain ⟨k, hk, rfl⟩ := hsize tzId hzone
      rw [zone_bits hk]
    · intro hsame tzId' h'
      have hid : tzId' = tzId := Except.ok.inj (h'.symm.trans hzone)
      rw [hid]
      exact ⟨tzId.toUint32 % 65536, Nat.mod_lt _ (by decide), hsame.symm⟩

theorem zoned_written {c : BatchCase} {f : MessageField} (value : Int → Number → RowValue)
    (bytes : Bytes) {date : JsDate} {tzId : Number} (hcase : batchCase d.type = some c)
    (hc : c = .timestamp_tz ∨ c = .time_tz) (hfield : messageField d = f)
    (hdate : dateOf v = some date) (hbytes : w'.buf = w.buf ++ bytes)
    (hvalue : ∀ t, date.time = some t → ZonedValue host v t tzId)
    (honly : ∀ t k, ZonedValue host v t k → k = tzId ∧ date.time = some t)
    (hinj : ∀ t a b, value t a = value t b → a = b)
    (hcell : ∀ t k, ZonedValue host v t k → CellValue host client i d c v (value t k))
    (hback : ∀ x, CellValue host client i d c v x → ∃ t k, ZonedValue host v t k ∧ x = value t k)
    (hread : ∀ t, date.time = some t → ∀ rest, readMessageField f (bytes ++ rest) =
      some (value t (.int ((tzId.toUint32 % 65536 : Nat) : Int)), rest)) :
    CellWritten host client i d v w w' := by
  have hplain : ¬ c.IsExact ∧ ¬ (c = .float ∨ c = .double) ∧ c ≠ .timestamp := by
    rcases hc with rfl | rfl <;> decide
  refine ⟨c, bytes, hcase, hbytes, ⟨fun hfits => ?_, fun x rest rest' hx hreads => ?_⟩⟩
  · obtain ⟨t, ht⟩ := hfits.zoned hc date hdate
    have hz := hvalue t ht
    rw [hfield]
    refine ⟨value t tzId, hcell t tzId hz, fun rest => ?_⟩
    rw [hread t ht, (wellSized_zone hdate hz).mp hfits.sized]
  · obtain ⟨t, k, hz, rfl⟩ := hback x hx
    obtain ⟨rfl, ht⟩ := honly t k hz
    rw [hfield, hread t ht] at hreads
    have hsame := hinj t _ _ (Prod.mk.inj (Option.some.inj hreads)).1
    refine ⟨(wellSized_zone hdate hz).mpr hsame, fun h => absurd h hplain.1,
      fun h => absurd h hplain.2.1, fun h => absurd h hplain.2.2, fun _ date' hdate' => ?_⟩
    rw [hdate] at hdate'
    cases hdate'
    exact ⟨t, ht⟩

theorem timestamp_tz_written (hcase : batchCase d.type = some .timestamp_tz)
    (h : batchWriter host.toBatchHost i .timestamp_tz v w = .ok w') :
    CellWritten host client i d v w w' := by
  obtain ⟨date, tzId, hdate, rfl, hvalue, honly⟩ := zoned_accepted (fun date tzId =>
    ((w.int32 (encodeTimestampUtc date).1).uint32 (encodeTimestampUtc date).2).uint32 tzId) h
  refine zoned_written
    (fun t k => .timestamp_tz (t / 86400000 + 40587) ((t % 86400000).toNat * 10) k)
    (bigEndian 4 (encodeTimestampUtc date).1.toUint32 ++
      (bigEndian 4 (encodeTimestampUtc date).2.toUint32 ++ bigEndian 4 tzId.toUint32)) hcase (Or.inl rfl) (by rw [messageField, hcase]) hdate ?_ hvalue honly ?_ ?_ ?_ ?_
  · simp only [XdrWriter.int32, XdrWriter.uint32, XdrWriter.raw, List.append_assoc]
  · intro t a b heq
    injection heq
  · exact fun t k hz => .timestamp_tz hz
  · intro x hx
    cases hx with
    | timestamp_tz hz => exact ⟨_, _, hz, rfl⟩
    | exact hc => exact absurd hc (by decide)
    | quad hc => exact absurd hc (by decide)
    | decimal hc => exact absurd hc (by decide)
  · intro t ht rest
    obtain ⟨hdays, hfractions⟩ := encodeTimestampUtc_read ht
    have hmask : tzId.toUint32 &&& 0xffff = tzId.toUint32 % 65536 :=
      Nat.and_two_pow_sub_one_eq_mod _ 16
    simp only [readMessageField, List.append_assoc, readInt32_append, readUint32_append,
      Option.bind_eq_bind, Option.bind_some, hmask]
    rw [hdays, hfractions]
    rfl

theorem time_tz_written (hcase : batchCase d.type = some .time_tz)
    (h : batchWriter host.toBatchHost i .time_tz v w = .ok w') :
    CellWritten host client i d v w w' := by
  obtain ⟨date, tzId, hdate, rfl, hvalue, honly⟩ := zoned_accepted
    (fun date tzId => (w.uint32 (timeFractions date)).uint32 tzId) h
  refine zoned_written (fun t k => .time_tz ((t % 86400000).toNat * 10) k)
    (bigEndian 4 (timeFractions date).toUint32 ++ bigEndian 4 tzId.toUint32) hcase (Or.inr rfl) (by rw [messageField, hcase]) hdate (List.append_assoc _ _ _) hvalue honly
    ?_ ?_ ?_ ?_
  · intro t a b heq
    injection heq
  · exact fun t k hz => .time_tz hz
  · intro x hx
    cases hx with
    | time_tz hz => exact ⟨_, _, hz, rfl⟩
    | exact hc => exact absurd hc (by decide)
    | quad hc => exact absurd hc (by decide)
    | decimal hc => exact absurd hc (by decide)
  · intro t ht rest
    obtain ⟨-, hfractions⟩ := encodeTimestampUtc_read ht
    have hmask : tzId.toUint32 &&& 0xffff = tzId.toUint32 % 65536 :=
      Nat.and_two_pow_sub_one_eq_mod _ 16
    simp only [readMessageField, List.append_assoc, readUint32_append, Option.bind_eq_bind,
      Option.bind_some, hmask]
    rw [timeFractions_eq, hfractions]
    rfl

/-- An id is copied as it is, whatever its length. -/
theorem blob_written {c : BatchCase} (hcase : batchCase d.type = some c)
    (hc : c = .blob ∨ c = .quad) (hread : ∀ bytes, readMessageField (messageField d) bytes =
      (readBytes 8 bytes).map fun (id, rest) => (.quad id, rest))
    (h : batchWriter host.toBatchHost i .blob v w = .ok w') :
    CellWritten host client i d v w w' := by
  have hplain : ¬ c.IsExact ∧ ¬ (c = .float ∨ c = .double) ∧ c ≠ .timestamp ∧
      ¬ (c = .timestamp_tz ∨ c = .time_tz) := by
    rcases hc with rfl | rfl <;> decide
  cases v with
  | blobRef id =>
    cases h
    refine ⟨c, id, hcase, rfl, ⟨fun hfits => ?_, fun value rest rest' hvalue hback => ?_⟩⟩
    · refine ⟨.quad id, .quad hc id, fun rest => ?_⟩
      rw [hread, readBytes_append (show id.length = 8 from hfits.sized), Option.map_some]
    · have hsame : value = .quad id := by
        cases hvalue with
        | quad => rfl
        | exact _ hx => cases hx
        | text hx => cases hx
        | float hx => cases hx
        | double hx => cases hx
        | timestamp_tz hz => cases hz
        | time_tz hz => cases hz
      rw [hread, hsame] at hback
      obtain ⟨⟨data, behind⟩, hbytes, heq⟩ := Option.map_eq_some_iff.mp hback
      cases heq
      exact .of_sized (readBytes_length hbytes) hplain.1 hplain.2.1 hplain.2.2.1 hplain.2.2.2
  | _ => cases h

theorem decimal_written {c : BatchCase} {size : Nat} {column : SqlColumn}
    (hcase : batchCase d.type = some c) (hc : c = .dec16 ∨ c = .dec34)
    (hcolumn : column = .dec16 ∧ size = 8 ∨ column = .dec34 ∧ size = 16)
    (hread : ∀ bytes, readMessageField (messageField d) bytes =
      (readBytes size bytes).map fun (data, rest) => (.decimal data, rest))
    (h : batchWriter host.toBatchHost i column v w = .ok w') :
    CellWritten host client i d v w w' := by
  have hdecimal : ∃ x, v = .decFloat x ∧ x.bytes.length = size ∧ w' = w.raw x.bytes := by
    cases v with
    | decFloat x =>
      refine ⟨x, rfl, ?_⟩
      have hsize : (if column = .dec16 then 8 else 16) = size := by
        rcases hcolumn with ⟨rfl, rfl⟩ | ⟨rfl, rfl⟩ <;> rfl
      have hwrite : batchWriter host.toBatchHost i column (.decFloat x) w =
          if x.bytes.length ≠ (if column = .dec16 then 8 else 16) then
            .error (batchError ("Batch parameter " ++ toString (i + 1) ++
              ": unsupported value for a DECFLOAT column in a batch"))
          else .ok (w.raw x.bytes) := by
        rcases hcolumn with ⟨rfl, rfl⟩ | ⟨rfl, rfl⟩ <;> rfl
      rw [hwrite, hsize] at h
      by_cases hlen : x.bytes.length = size
      · rw [if_neg (not_not.mpr hlen)] at h
        cases h
        exact ⟨hlen, rfl⟩
      · rw [if_pos hlen] at h
        cases h
    | _ => rcases hcolumn with ⟨rfl, rfl⟩ | ⟨rfl, rfl⟩ <;> cases h
  obtain ⟨x, rfl, hlen, rfl⟩ := hdecimal
  have hsize : WellSized host.toEncodeHost (.decFloat x) := trivial
  have hplain : ¬ c.IsExact ∧ ¬ (c = .float ∨ c = .double) ∧ c ≠ .timestamp ∧
      ¬ (c = .timestamp_tz ∨ c = .time_tz) := by
    rcases hc with rfl | rfl <;> decide
  refine ⟨c, x.bytes, hcase, rfl, CellReads.plain rfl
    (.of_sized hsize hplain.1 hplain.2.1 hplain.2.2.1 hplain.2.2.2) (.decimal hc x) fun rest => ?_⟩
  rw [hread, readBytes_append hlen, Option.map_some]

theorem reads_bit (bit : UInt8) (rest : Bytes) :
    readPadded 1 ([bit] ++ List.replicate (padded 1 - 1) 0 ++ rest) = some ([bit], rest) := by
  have hfiller : [bit].length + (List.replicate (padded 1 - 1) (0 : UInt8)).length =
      padded [bit].length := by
    rw [List.length_replicate]
    exact padded_filler 1
  exact readPadded_append hfiller rest

theorem boolean_written (hcase : batchCase d.type = some .boolean)
    (h : batchWriter host.toBatchHost i .boolean v w = .ok w') :
    CellWritten host client i d v w w' := by
  have hbit : ∃ b : Bool, w' = w.opaqueFixed [if b then 1 else 0] ∧
      CellValue host client i d .boolean v (.boolean b) ∧ WellSized host.toEncodeHost v := by
    cases v with
    | boolean b =>
      cases h
      exact ⟨b, rfl, .boolean b, trivial⟩
    | number x =>
      cases h
      refine ⟨x.integer ≠ some 0, ?_, .nonzero x, trivial⟩
      simp only [decide_eq_true_eq]
    | _ => cases h
  obtain ⟨b, rfl, hvalue, hsize⟩ := hbit
  have hfield : messageField d = .bool := by rw [messageField, hcase]
  have hfits : CaseFits host client d .boolean v :=
    .of_sized hsize (by decide) (by decide) (by decide) (by decide)
  generalize hbyte : (if b then 1 else 0 : UInt8) = bit
  refine ⟨.boolean, [bit] ++ List.replicate (padded 1 - 1) 0, hcase, rfl,
    CellReads.plain hfield hfits hvalue fun rest => ?_⟩
  unfold readMessageField
  dsimp only
  rw [reads_bit, Option.map_some, ← hbyte]
  cases b
  · rfl
  · rfl

end Cell

/-! One field -/

/-- A field is described as that of its column, takes its place, and its cells are read back. -/
structure FieldOf (host : MessageHost) (client : Zone) (i : Nat) (d : SqlVarDesc)
    (field : BatchField) : Prop where
  describe : ∀ b, (nullSlot (field.describe b)).bytes = b.bytes ++ (messageField d).descriptor
  extent : field.extent = (messageField d).extent
  write : Runs host client → (messageField d).Short → ∀ v w w', isNullish v = false →
    (∀ text, v = .string text → text.length < 2 ^ 40) → field.write v w = .ok w' →
      CellWritten host client i d v w w'

section Field
variable {i : Nat} {d : SqlVarDesc}

theorem FieldOf.of {f : MessageField} {describe : BlrBuilder → BlrBuilder} {bytes : Bytes}
    {write : BatchFieldWriter} (hfield : messageField d = f)
    (hdescribe : ∀ b, (describe b).bytes = b.bytes ++ bytes)
    (hbytes : f.descriptor = bytes ++ [Blr.short, 0])
    (hwrite : Runs host client → f.Short → ∀ v w w',
      (∀ text, v = .string text → text.length < 2 ^ 40) → write v w = .ok w' →
        CellWritten host client i d v w w') :
    FieldOf host client i d ⟨describe, f.extent, write⟩ := by
  refine ⟨fun b => ?_, by rw [hfield], fun hruns hshort v w w' _ htext => ?_⟩
  · have hslot : (nullSlot (describe b)).bytes = (describe b).bytes ++ [Blr.short] ++ [0] := rfl
    rw [hslot, hdescribe, hfield, hbytes, List.append_assoc, List.append_assoc]
    rfl
  · rw [hfield] at hshort
    exact hwrite hruns hshort v w w' htext

theorem batchField_spec {field : BatchField} (h : batchField host i d = .ok field) :
    FieldOf host client i d field := by
  simp only [batchField] at h
  cases hcase : batchCase d.type with
  | none =>
    rw [hcase] at h
    cases h
  | some c =>
  rw [hcase] at h
  cases c with
  | text =>
    cases h
    have hfield : messageField d = .varying (textCap d) := by rw [messageField, hcase]
    exact .of hfield (fun b => List.append_assoc _ _ _) rfl
      fun _ hshort v w w' _ hw => text_written hcase hshort hw
  | long =>
    cases h
    have hfield : messageField d = .long d.scale := by rw [messageField, hcase]
    exact .of hfield (fun b => List.append_assoc _ _ _) rfl
      fun hruns hshort v w w' htext hw => exact_written hruns htext hcase (by decide) hfield hshort
        (by decide) long_bytes hw
  | int64 =>
    cases h
    have hfield : messageField d = .int64 d.scale := by rw [messageField, hcase]
    exact .of hfield (fun b => List.append_assoc _ _ _) rfl
      fun hruns hshort v w w' htext hw => exact_written hruns htext hcase (by decide) hfield hshort
        (by decide) (fun n _ _ => int64_bytes n) hw
  | int128 =>
    cases h
    have hfield : messageField d = .int128 d.scale := by rw [messageField, hcase]
    exact .of hfield (fun b => List.append_assoc _ _ _) rfl
      fun hruns hshort v w w' htext hw => exact_written hruns htext hcase (by decide) hfield hshort
        (by decide) (fun n _ _ => int128_bytes n) hw
  | float =>
    cases h
    have hfield : messageField d = .float := by rw [messageField, hcase]
    refine .of hfield (fun b => rfl) rfl fun _ _ v w w' _ hw => ?_
    obtain ⟨x, hx, hw⟩ := bind_ok hw
    cases hw
    exact float_written hcase hx
  | double =>
    cases h
    have hfield : messageField d = .double := by rw [messageField, hcase]
    refine .of hfield (fun b => rfl) rfl fun _ _ v w w' _ hw => ?_
    obtain ⟨x, hx, hw⟩ := bind_ok hw
    cases hw
    exact double_written hcase hx
  | timestamp =>
    cases h
    have hfield : messageField d = .timestamp := by rw [messageField, hcase]
    exact .of hfield (fun b => rfl) rfl
      fun hruns _ v w w' _ hw => timestamp_written hruns hcase hw
  | timestamp_tz =>
    cases h
    have hfield : messageField d = .timestamp_tz := by rw [messageField, hcase]
    exact .of hfield (fun b => rfl) rfl fun _ _ v w w' _ hw => timestamp_tz_written hcase hw
  | time_tz =>
    cases h
    have hfield : messageField d = .sql_time_tz := by rw [messageField, hcase]
    exact .of hfield (fun b => rfl) rfl fun _ _ v w w' _ hw => time_tz_written hcase hw
  | blob =>
    cases h
    have hfield : messageField d = .blob2 (d.subType % 65536).toNat (d.scale % 256).toNat := by
      rw [messageField, hcase]
    refine .of hfield (fun b => (List.append_assoc _ _ _).trans (List.append_assoc _ _ _)) rfl
      fun _ _ v w w' _ hw => ?_
    exact blob_written hcase (Or.inl rfl) (fun bytes => by rw [hfield]; rfl) hw
  | quad =>
    cases h
    have hfield : messageField d = .quad := by rw [messageField, hcase]
    refine .of hfield (fun b => List.append_assoc _ _ _) rfl fun _ _ v w w' _ hw => ?_
    exact blob_written hcase (Or.inr rfl) (fun bytes => by rw [hfield]; rfl) hw
  | dec16 =>
    cases h
    have hfield : messageField d = .dec64 := by rw [messageField, hcase]
    refine .of hfield (fun b => rfl) rfl fun _ _ v w w' _ hw => ?_
    exact decimal_written hcase (Or.inl rfl) (.inl ⟨rfl, rfl⟩) (fun bytes => by rw [hfield]; rfl) hw
  | dec34 =>
    cases h
    have hfield : messageField d = .dec128 := by rw [messageField, hcase]
    refine .of hfield (fun b => rfl) rfl fun _ _ v w w' _ hw => ?_
    exact decimal_written hcase (Or.inr rfl) (.inr ⟨rfl, rfl⟩) (fun bytes => by rw [hfield]; rfl) hw
  | boolean =>
    cases h
    have hfield : messageField d = .bool := by rw [messageField, hcase]
    exact .of hfield (fun b => rfl) rfl fun _ _ v w w' _ hw => boolean_written hcase hw

end Field

end FastFirebird.Msgcodec.BatchMessage
