import FastFirebird.BatchCells

/-! The BLR of a batch message, its length and its rows agree. -/
namespace FastFirebird.Msgcodec.BatchMessage

variable {host : MessageHost} {client : Zone}

/-! The format -/

/-- The writers that the loop makes for the inputs from the `i`-th on. -/
inductive Columns (host : MessageHost) (client : Zone) :
    Nat → List SqlVarDesc → List BatchFieldWriter → Prop where
  | nil {i : Nat} : Columns host client i [] []
  | cons {i : Nat} {d : SqlVarDesc} {inputs : List SqlVarDesc} {field : BatchField}
      {writers : List BatchFieldWriter} (hfield : FieldOf host client i d field)
      (hrest : Columns host client (i + 1) inputs writers) :
      Columns host client i (d :: inputs) (field.write :: writers)

theorem Columns.length {i : Nat} {inputs : List SqlVarDesc} {writers : List BatchFieldWriter}
    (h : Columns host client i inputs writers) : writers.length = inputs.length := by
  induction h with
  | nil => rfl
  | cons _ _ ih => rw [List.length_cons, List.length_cons, ih]

theorem formatLoop_spec {inputs : List SqlVarDesc} : ∀ {i : Nat} {s s' : FormatState},
    formatLoop host i inputs s = .ok s' → ∃ writers, Columns host client i inputs writers ∧
      s'.writers = s.writers ++ writers ∧
      s'.b.bytes = s.b.bytes ++ (inputs.map messageField).flatMap MessageField.descriptor ∧
      s'.msglen = ((inputs.map messageField).map MessageField.extent).foldl addField s.msglen := by
  induction inputs with
  | nil =>
    intro i s s' h
    cases h
    exact ⟨[], .nil, by rw [List.append_nil], by simp, rfl⟩
  | cons d inputs ih =>
    intro i s s' h
    obtain ⟨field, hfield, hloop⟩ := bind_ok h
    have hspec := @batchField_spec host client i d field hfield
    obtain ⟨writers, hcolumns, hwriters, hbytes, hmsglen⟩ := ih hloop
    refine ⟨field.write :: writers, .cons hspec hcolumns, ?_, ?_, ?_⟩
    · rw [hwriters, List.append_assoc]
      rfl
    · rw [hbytes, hspec.describe, List.map_cons, List.flatMap_cons, List.append_assoc]
    · rw [hmsglen, hspec.extent]
      rfl

/-- What comes out for the inputs that are accepted. -/
theorem buildBatchFormat_spec {inputs : List SqlVarDesc} {format : BatchFormat}
    (h : buildBatchFormat host inputs = .ok format) :
    Columns host client 0 inputs format.writers ∧
      format.blr = Blr.version5 :: Blr.begin_ :: Blr.message :: 0 ::
        UInt8.ofNat (inputs.length * 2) :: UInt8.ofNat ((inputs.length * 2) >>> 8) ::
        ((inputs.map messageField).flatMap MessageField.descriptor ++ [Blr.end_, Blr.eoc]) ∧
      format.msglen = ((inputs.map messageField).map MessageField.extent).foldl addField 0 ∧
      format.alignedStride = fbAlign format.msglen 8 := by
  obtain ⟨s, hloop, h⟩ := bind_ok h
  cases h
  obtain ⟨writers, hcolumns, hwriters, hbytes, hmsglen⟩ := formatLoop_spec hloop
  have hall : s.writers = writers := hwriters
  refine ⟨hall ▸ hcolumns, ?_, hmsglen, rfl⟩
  simp [blrFooter, BlrBuilder.byte, hbytes, blrHeader, BlrBuilder.word]

/-- The BLR is parsed as the fields of the inputs, if these are short and only then. -/
theorem parseMessage_format {inputs : List SqlVarDesc} {format : BatchFormat}
    (hcount : inputs.length < 32768) (h : buildBatchFormat host inputs = .ok format) :
    parseMessage format.blr = some (2 * inputs.length, inputs.map messageField) ↔
      ∀ d ∈ inputs, (messageField d).Short := by
  obtain ⟨-, hblr, -, -⟩ := @buildBatchFormat_spec host (.fixed 0 (by decide)) _ _ h
  have hword : wordAt (UInt8.ofNat (inputs.length * 2)) (UInt8.ofNat ((inputs.length * 2) >>> 8)) =
      2 * inputs.length := by
    rw [wordAt_ofNat (by omega)]
    omega
  rw [hblr, parseMessage, if_pos ⟨rfl, rfl, rfl, rfl⟩, hword]
  constructor
  · intro hparse d hd
    obtain ⟨fields, hfields, heq⟩ := Option.map_eq_some_iff.mp hparse
    have hsame : fields = inputs.map messageField := (Prod.mk.inj heq).2
    apply parseMessageFields_short hfields
    rw [hsame]
    exact List.mem_map_of_mem hd
  · intro hshort
    have hfields := length_descriptors (inputs.map messageField)
    have hall : ∀ f ∈ inputs.map messageField, f.Short := by
      intro f hf
      obtain ⟨d, hd, rfl⟩ := List.mem_map.mp hf
      exact hshort d hd
    have hparse := parseMessageFields_descriptors hall
      ((inputs.map messageField).flatMap MessageField.descriptor ++ [Blr.end_, Blr.eoc]).length
      (by
        rw [List.length_append]
        show (inputs.map messageField).length < _ + 2
        omega)
    rw [hparse, Option.map_some]

/-! The null bitmap -/

/-- The bitmap marks the nulls among the cells from the `i`-th on. -/
def NullsMarked (bitmap : Bytes) (i : Nat) (cells : List ParamValue) : Prop :=
  ∀ j v, cells[j]? = some v → isNullBit bitmap (i + j) = isNullish v

theorem NullsMarked.head {bitmap : Bytes} {i : Nat} {v : ParamValue} {cells : List ParamValue}
    (h : NullsMarked bitmap i (v :: cells)) : isNullBit bitmap i = isNullish v := h 0 v rfl

theorem NullsMarked.tail {bitmap : Bytes} {i : Nat} {v : ParamValue} {cells : List ParamValue}
    (h : NullsMarked bitmap i (v :: cells)) : NullsMarked bitmap (i + 1) cells := by
  intro j u hu
  have hindex : i + 1 + j = i + (j + 1) := by omega
  rw [hindex]
  exact h (j + 1) u hu

theorem nullBits_marked {cells : List ParamValue} : ∀ {i : Nat} {bitmap : Bytes},
    i + cells.length ≤ 8 * bitmap.length → (∀ j, i ≤ j → isNullBit bitmap j = false) →
    (nullBits i cells bitmap).length = bitmap.length ∧
      (∀ j, j < i → isNullBit (nullBits i cells bitmap) j = isNullBit bitmap j) ∧
      NullsMarked (nullBits i cells bitmap) i cells := by
  induction cells with
  | nil => exact fun _ _ => ⟨rfl, fun _ _ => rfl, fun j v hj => nomatch hj⟩
  | cons v cells ih =>
    intro i bitmap hroom hclear
    rw [List.length_cons] at hroom
    -- the bit of the first cell, and the bits that are still to come
    have hfirst : ∃ bitmap₁, (if isNullish v then setBit bitmap i else bitmap) = bitmap₁ ∧
        bitmap₁.length = bitmap.length ∧ isNullBit bitmap₁ i = isNullish v ∧
        ∀ j, j ≠ i → isNullBit bitmap₁ j = isNullBit bitmap j := by
      cases hv : isNullish v with
      | true =>
        have hbit := @isNullBit_setBit bitmap i (by omega)
        refine ⟨_, rfl, length_setBit bitmap i, ?_, fun j hj => ?_⟩
        · show isNullBit (setBit bitmap i) i = true
          rw [hbit, decide_eq_true rfl, Bool.true_or]
        · show isNullBit (setBit bitmap i) j = _
          rw [hbit, decide_eq_false hj, Bool.false_or]
      | false => exact ⟨bitmap, rfl, rfl, hclear i (Nat.le_refl i), fun _ _ => rfl⟩
    obtain ⟨bitmap₁, heq, hlength, hbit, hothers⟩ := hfirst
    have hlater (j : Nat) (hj : i + 1 ≤ j) : isNullBit bitmap₁ j = false := by
      rw [hothers j (by omega)]
      exact hclear j (by omega)
    obtain ⟨hlength', hearlier, hmarked⟩ := ih (by omega) hlater
    rw [nullBits, heq]
    refine ⟨hlength'.trans hlength, fun j hj => ?_, fun j u hu => ?_⟩
    · rw [hearlier j (by omega), hothers j (by omega)]
    · cases j with
      | zero =>
        cases hu
        show isNullBit (nullBits (i + 1) cells bitmap₁) i = _
        rw [hearlier i (by omega), hbit]
      | succ j =>
        have hindex : i + (j + 1) = i + 1 + j := by omega
        rw [hindex]
        exact hmarked j u hu

/-! A row -/

variable (host client) in
/-- A null for every cell without a value, and for the others what they are in their columns. -/
def RowOf : Nat → List SqlVarDesc → List ParamValue → List (Option RowValue) → Prop
  | i, d :: inputs, v :: cells, value :: row =>
    CellOf host client i d v value ∧ RowOf (i + 1) inputs cells row
  | _, [], [], [] => True
  | _, _, _, _ => False

variable (host client) in
def RowFits : List SqlVarDesc → List ParamValue → Prop
  | d :: inputs, v :: cells => CellFits host client d v ∧ RowFits inputs cells
  | _, _ => True

/-- What the writers append is read as a row of the cells' values if these fit, and only then. -/
theorem Columns.reads {i : Nat} {inputs : List SqlVarDesc} {writers : List BatchFieldWriter}
    (h : Columns host client i inputs writers) (hruns : Runs host client) :
    (∀ d ∈ inputs, (messageField d).Short) → ∀ {cells : List ParamValue} {w w' : XdrWriter},
      (∀ text, ParamValue.string text ∈ cells → text.length < 2 ^ 40) →
      cells.length = inputs.length → writeCells writers cells w = .ok w' →
      ∃ bytes, w'.buf = w.buf ++ bytes ∧ ∀ bitmap, NullsMarked bitmap i cells →
        ((∃ row, readMessageCells bitmap i (inputs.map messageField) bytes = some (row, []) ∧
          RowOf host client i inputs cells row) ↔ RowFits host client inputs cells) := by
  induction h with
  | nil =>
    intro _ cells w w' _ hlength hwrite
    have hcells : cells = [] := List.length_eq_zero_iff.mp hlength
    subst hcells
    cases hwrite
    exact ⟨[], (List.append_nil _).symm, fun _ _ => iff_of_true ⟨[], rfl, trivial⟩ trivial⟩
  | @cons i d inputs field writers hfield hcolumns ih =>
    intro hshort cells w w' htext hlength hwrite
    obtain ⟨hd, hshort⟩ := List.forall_mem_cons.mp hshort
    cases cells with
    | nil => cases hlength
    | cons v cells =>
    have hlength' : cells.length = inputs.length := Nat.succ.inj hlength
    have htext' : ∀ text, ParamValue.string text ∈ cells → text.length < 2 ^ 40 :=
      fun text hmem => htext text (List.mem_cons_of_mem v hmem)
    cases hv : isNullish v with
    | true =>
      rw [writeCells, if_pos hv] at hwrite
      obtain ⟨bytes, hbytes, hread⟩ := ih hshort htext' hlength' hwrite
      refine ⟨bytes, hbytes, fun bitmap hmarked => ?_⟩
      have hbit : isNullBit bitmap i = true := hmarked.head.trans hv
      rw [List.map_cons, readMessageCells, if_pos hbit]
      constructor
      · rintro ⟨row, hrow, hof⟩
        obtain ⟨⟨row', rest⟩, hrow', heq⟩ := Option.map_eq_some_iff.mp hrow
        cases heq
        exact ⟨CellFits.null hv, (hread bitmap hmarked.tail).mp ⟨row', hrow', hof.2⟩⟩
      · rintro ⟨-, hfits⟩
        obtain ⟨row, hrow, hof⟩ := (hread bitmap hmarked.tail).mpr hfits
        rw [hrow]
        exact ⟨none :: row, rfl, hv, hof⟩
    | false =>
      have hne : ¬ isNullish v = true := by rw [hv]; exact Bool.false_ne_true
      rw [writeCells, if_neg hne] at hwrite
      obtain ⟨w₁, hfirst, hwrite⟩ := bind_ok hwrite
      obtain ⟨c, bytes₁, hcase, hbytes₁, hreads⟩ := hfield.write hruns hd v w w₁ hv
        (fun text heq => htext text (heq ▸ List.mem_cons_self)) hfirst
      obtain ⟨bytes, hbytes, hread⟩ := ih hshort htext' hlength' hwrite
      refine ⟨bytes₁ ++ bytes, by rw [hbytes, hbytes₁, List.append_assoc], fun bitmap hmarked => ?_⟩
      have hbit : ¬ isNullBit bitmap i = true := by
        rw [hmarked.head]
        exact hne
      rw [List.map_cons, readMessageCells, if_neg hbit]
      constructor
      · rintro ⟨row, hrow, hof⟩
        obtain ⟨⟨value, middle⟩, hcell, hrow⟩ := Option.bind_eq_some_iff.mp hrow
        obtain ⟨⟨row', rest⟩, hrow', heq⟩ := Option.bind_eq_some_iff.mp hrow
        cases heq
        obtain ⟨⟨-, c', hcase', hvalue⟩, hof⟩ := hof
        obtain rfl : c = c' := Option.some.inj (hcase.symm.trans hcase')
        have hfits := hreads.only value bytes middle hvalue hcell
        -- then the cell took its own bytes, and the rest of the row is read behind them
        obtain ⟨value', -, hback⟩ := hreads.back hfits
        rw [hback bytes] at hcell
        obtain ⟨-, rfl⟩ := Prod.mk.inj (Option.some.inj hcell)
        refine ⟨fun c'' hcase'' => ?_, (hread bitmap hmarked.tail).mp ⟨row', hrow', hof⟩⟩
        obtain rfl : c = c'' := Option.some.inj (hcase.symm.trans hcase'')
        exact hfits
      · rintro ⟨hfits, hrest⟩
        obtain ⟨value, hvalue, hback⟩ := hreads.back (hfits c hcase)
        obtain ⟨row, hrow, hof⟩ := (hread bitmap hmarked.tail).mpr hrest
        rw [hback bytes]
        simp only [Option.bind_eq_bind, Option.bind_some, hrow]
        exact ⟨some value :: row, rfl, ⟨hv, c, hcase, hvalue⟩, hof⟩

theorem rowCells_string {n : Nat} {values : List ParamValue} {text : Text}
    (h : ParamValue.string text ∈ rowCells n values) : ParamValue.string text ∈ values := by
  obtain ⟨i, -, hi⟩ := List.mem_map.mp h
  rw [List.getD_eq_getElem?_getD] at hi
  cases hvalue : values[i]? with
  | none =>
    rw [hvalue] at hi
    cases hi
  | some v =>
    rw [hvalue, Option.getD_some] at hi
    rw [← hi]
    exact List.mem_of_getElem? hvalue

/-- A row of bytes is read as a row of the cells' values, if these fit, and only then. -/
theorem encodeBatchRow_spec {inputs : List SqlVarDesc} {format : BatchFormat}
    {values : List ParamValue} {row : Bytes} (hruns : Runs host client)
    (htext : ∀ text, ParamValue.string text ∈ values → text.length < 2 ^ 40)
    (hformat : buildBatchFormat host inputs = .ok format)
    (hshort : ∀ d ∈ inputs, (messageField d).Short)
    (hrow : encodeBatchRow format values = .ok row) :
    (∃ read, readMessageRow (inputs.map messageField) row = some (read, []) ∧
        RowOf host client 0 inputs (rowCells inputs.length values) read) ↔
      RowFits host client inputs (rowCells inputs.length values) := by
  obtain ⟨hcolumns, -, -, -⟩ := @buildBatchFormat_spec host client _ _ hformat
  have hcount : format.writers.length = inputs.length := hcolumns.length
  have hcells : (rowCells inputs.length values).length = inputs.length := by
    rw [rowCells, List.length_map, List.length_range]
  simp only [encodeBatchRow, hcount] at hrow
  obtain ⟨w, hwrite, hrow⟩ := bind_ok hrow
  cases hrow
  generalize hbitmap : nullBits 0 (rowCells inputs.length values)
    (List.replicate ((inputs.length + 7) >>> 3) 0) = bitmap at hwrite
  have hoctets : (inputs.length + 7) >>> 3 = (inputs.length + 7) / 8 :=
    Nat.shiftRight_eq_div_pow _ 3
  obtain ⟨hlength, -, hmarked⟩ := @nullBits_marked (rowCells inputs.length values) 0
    (List.replicate ((inputs.length + 7) >>> 3) 0)
    (by rw [List.length_replicate, hcells, hoctets]; omega) fun j _ => isNullBit_zeros _ j
  rw [hbitmap] at hlength hmarked
  rw [List.length_replicate] at hlength
  obtain ⟨bytes, hbytes, hread⟩ := hcolumns.reads hruns hshort
    (fun text hmem => htext text (rowCells_string hmem)) hcells hwrite
  -- the bitmap and its filler stand in front of what the writers appended
  have hfront : readMessageRow (inputs.map messageField) w.buf =
      readMessageCells bitmap 0 (inputs.map messageField) bytes := by
    have hread := @readPadded_append bitmap
      (List.replicate (padded bitmap.length - bitmap.length) 0)
      (by rw [List.length_replicate, padded_filler]) bytes
    rw [hlength] at hread
    have hbuf : w.buf = bitmap ++ List.replicate (padded ((inputs.length + 7) >>> 3) -
        (inputs.length + 7) >>> 3) 0 ++ bytes := by
      rw [hbytes, ← hlength]
      rfl
    rw [readMessageRow, List.length_map, hbuf, hread]
    rfl
  rw [hfront]
  exact hread bitmap hmarked

/-! Agreement -/

/-- The BLR describes the inputs, the row is read by it as the values that were passed, and the
lengths are those of the engine's layout. -/
structure Agrees (host : MessageHost) (client : Zone) (inputs : List SqlVarDesc)
    (format : BatchFormat) (values : List ParamValue) (row : Bytes) : Prop where
  blr : parseMessage format.blr = some (2 * inputs.length, inputs.map messageField)
  row : ∃ read, readMessageRow (inputs.map messageField) row = some (read, []) ∧
    RowOf host client 0 inputs (rowCells inputs.length values) read
  msglen : format.msglen = messageLength (inputs.map messageField)
  stride_dvd : 8 ∣ format.alignedStride
  le_stride : format.msglen ≤ format.alignedStride
  stride_least : ∀ m : Int, 8 ∣ m → format.msglen ≤ m → format.alignedStride ≤ m

/-- Lengths and scales go into the BLR, the message goes into 32 bits, and the cells fit. -/
structure Fits (host : MessageHost) (client : Zone) (inputs : List SqlVarDesc)
    (values : List ParamValue) : Prop where
  short : ∀ d ∈ inputs, (messageField d).Short
  length : messageLength (inputs.map messageField) ≤ 2 ^ 31 - 8
  cells : RowFits host client inputs (rowCells inputs.length values)

section Agreement
variable {inputs : List SqlVarDesc} {format : BatchFormat} {values : List ParamValue} {row : Bytes}
  (hruns : Runs host client)
  (htext : ∀ text, ParamValue.string text ∈ values → text.length < 2 ^ 40)
include hruns htext

theorem Agrees.fits (hcount : inputs.length < 32768)
    (hformat : buildBatchFormat host inputs = .ok format)
    (hrow : encodeBatchRow format values = .ok row)
    (h : Agrees host client inputs format values row) : Fits host client inputs values := by
  have hshort := (parseMessage_format hcount hformat).mp h.blr
  refine ⟨hshort, ?_, (encodeBatchRow_spec hruns htext hformat hshort hrow).mp h.row⟩
  obtain ⟨-, -, -, hstride⟩ := @buildBatchFormat_spec host client _ _ hformat
  have hle := h.le_stride
  rw [hstride, h.msglen] at hle
  have hbound := Int.le_trans hle (fbAlign_eight_le _)
  omega

theorem Fits.agrees (hcount : inputs.length < 32768)
    (hformat : buildBatchFormat host inputs = .ok format)
    (hrow : encodeBatchRow format values = .ok row) (h : Fits host client inputs values) :
    Agrees host client inputs format values row := by
  obtain ⟨-, -, hloop, hstride⟩ := @buildBatchFormat_spec host client _ _ hformat
  have hmsglen : format.msglen = messageLength (inputs.map messageField) := by
    rw [hloop]
    exact foldl_addField h.length
  have haligned : format.alignedStride = alignUp (messageLength (inputs.map messageField)) 8 := by
    have hlength := h.length
    rw [hstride, hmsglen]
    exact fbAlign_eq (k := 3) (by decide) (by omega)
  refine ⟨(parseMessage_format hcount hformat).mpr h.short,
    (encodeBatchRow_spec hruns htext hformat h.short hrow).mpr h.cells, hmsglen, ?_, ?_, ?_⟩
  · rw [haligned]
    exact Int.natCast_dvd_natCast.mpr dvd_alignUp
  · rw [haligned, hmsglen]
    exact Int.ofNat_le.mpr (le_alignUp (by decide))
  · intro m hm hle
    rw [hmsglen] at hle
    obtain ⟨n, rfl⟩ := Int.eq_ofNat_of_zero_le (Int.le_trans (Int.natCast_nonneg _) hle)
    rw [haligned]
    exact Int.ofNat_le.mpr
      (alignUp_least (by decide) (Int.natCast_dvd_natCast.mp hm) (Int.ofNat_le.mp hle))

end Agreement

def greenwich : Zone := .fixed 0 (Nat.succ_pos _)

/-- A host for messages without fractions. -/
def asciiMessages : MessageHost where
  toEncodeHost := asciiHost.within greenwich
  fractionText _ := []
  ofBigint _ := ⟨0⟩
  ofText _ := ⟨0⟩
  floatBits _ := 0

theorem asciiMessages_runs : Runs asciiMessages greenwich :=
  ⟨rfl, fun _ => (by decide : ([] : Text).length < 2 ^ 40)⟩

/-- A `NUMERIC(9, 2)` in front of a `VARCHAR(5)`, a `TIMESTAMP` and a `BLOB`. -/
def mixedInputs : List SqlVarDesc :=
  [⟨SqlType.long, true, 0, -2, 4, none, none, none, none, none⟩,
    ⟨SqlType.varying, true, 0, 0, 5, none, none, none, none, none⟩,
    ⟨SqlType.timestamp, true, 0, 0, 8, none, none, none, none, none⟩,
    ⟨SqlType.blob, true, 1, 0, 8, none, none, none, none, none⟩]

/-- Seven, a text, the second of January 1970, and nothing for the blob. -/
def mixedRow : List ParamValue :=
  [.number ⟨0x401c000000000000⟩, .string "abc".toList, .date ⟨some 86400000, by simp⟩]

end FastFirebird.Msgcodec.BatchMessage
