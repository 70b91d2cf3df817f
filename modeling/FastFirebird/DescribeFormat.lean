import FastFirebird.Describe

/-! The describe format: what a description looks like as clumplets, and that the parser gives it
back. -/
namespace FastFirebird.Describe

/-! Clumplets -/

inductive Item where
  | mark (item : SqlInfo)
  | int (item : SqlInfo) (v : Int)
  | name (item : SqlInfo) (text : Text)
  deriving Repr, DecidableEq

def Item.info : Item → SqlInfo
  | mark item => item
  | int item _ => item
  | name item _ => item

/-- The octets behind the item code. The server picks the width of a number. -/
inductive Payload : Item → Bytes → Prop where
  | mark {item : SqlInfo} : Payload (.mark item) []
  | int {item : SqlInfo} {v : Int} (k : Nat) (hk : k = 1 ∨ k = 2 ∨ k = 4)
      (hlow : -(256 ^ k : Nat) ≤ 2 * v) (hhigh : 2 * v < (256 ^ k : Nat)) :
      Payload (.int item v) (toLittleEndian 2 k ++ toSignedLE k v)
  | name {item : SqlInfo} {text : Text} (h : (Utf8.encode text).length < 256 ^ 2) :
      Payload (.name item text)
        (toLittleEndian 2 (Utf8.encode text).length ++ Utf8.encode text)

/-- Items one behind the other. -/
inductive Encoded : List Item → Bytes → Prop where
  | nil : Encoded [] []
  | cons {item : Item} {payload : Bytes} {items : List Item} {bytes : Bytes}
      (hitem : Payload item payload) (hitems : Encoded items bytes) :
      Encoded (item :: items) (item.info.code :: (payload ++ bytes))

/-- What fits a clumplet. -/
def Item.Fits : Item → Prop
  | mark _ => True
  | int _ v => -2 ^ 31 ≤ v ∧ v < 2 ^ 31
  | name _ text => (Utf8.encode text).length < 2 ^ 16

instance (item : Item) : Decidable item.Fits := by
  cases item <;> unfold Item.Fits <;> infer_instance

theorem Item.Fits.payload {item : Item} (h : item.Fits) : ∃ payload, Payload item payload := by
  cases item with
  | mark item => exact ⟨_, .mark⟩
  | int item v => exact ⟨_, .int 4 (by decide) (by have := h.1; omega) (by have := h.2; omega)⟩
  | name item text => exact ⟨_, .name h⟩

theorem encoded_of_fits {items : List Item} (h : ∀ item ∈ items, item.Fits) :
    ∃ bytes, Encoded items bytes := by
  induction items with
  | nil => exact ⟨[], .nil⟩
  | cons item items ih =>
    obtain ⟨payload, hitem⟩ := (h item List.mem_cons_self).payload
    obtain ⟨bytes, hitems⟩ := ih fun other hother => h other (List.mem_cons_of_mem _ hother)
    exact ⟨_, .cons hitem hitems⟩

/-! Descriptions as items -/

/-- A description as it is told: every column with its names. -/
structure Description where
  stmtType : Int
  inputs : List SqlVarDesc
  outputs : List SqlVarDesc
  deriving Repr, DecidableEq

def Description.desc (d : Description) : StatementDescription :=
  ⟨d.stmtType, d.inputs.map some, d.outputs.map some⟩

def nameItem (item : SqlInfo) (name : Option Text) : Item := .name item (name.getD [])

/-- The column at `index`; a relation alias is asked for of outputs only. -/
def columnItems (index : Nat) (v : SqlVarDesc) : List Item :=
  [.int .sqlda_seq (index + 1), .int .type (v.type + if v.nullable then 1 else 0),
    .int .sub_type v.subType, .int .scale v.scale, .int .length v.length,
    nameItem .field v.field, nameItem .relation v.relation] ++
  (match v.relationAlias with
    | some name => [.name .relation_alias name]
    | none => []) ++
  [nameItem .owner v.owner, nameItem .alias_ v.aliasName, .mark .describe_end]

def columnsItems : (index : Nat) → List SqlVarDesc → List Item
  | _, [] => []
  | index, v :: columns => columnItems index v ++ columnsItems (index + 1) columns

def sectionItems (side : Side) (columns : List SqlVarDesc) : List Item :=
  .mark (match side with | .outputs => .select | .inputs => .bind) ::
    .int .describe_vars columns.length :: columnsItems 0 columns

def Description.items (d : Description) : List Item :=
  .int .stmt_type d.stmtType :: (sectionItems .outputs d.outputs ++ sectionItems .inputs d.inputs)

/-- The items of a description are those that were asked for, in their order. -/
theorem items_order (stmtType : Int) {input output : SqlVarDesc} {name : Text}
    (hinput : input.relationAlias = none) (houtput : output.relationAlias = some name) :
    (Description.items ⟨stmtType, [input], [output]⟩).map Item.info = describeInfoItems := by
  simp only [Description.items, sectionItems, columnsItems, columnItems, hinput, houtput]
  rfl

/-- A column with its names; its type is stripped of the nullable bit. -/
structure SqlVarDesc.Told (v : SqlVarDesc) : Prop where
  type : v.type % 2 = 0
  field : v.field.isSome
  relation : v.relation.isSome
  owner : v.owner.isSome
  aliasName : v.aliasName.isSome

structure Description.Told (d : Description) : Prop where
  inputs : ∀ v ∈ d.inputs, v.Told
  outputs : ∀ v ∈ d.outputs, v.Told

/-! Reading a clumplet -/

theorem readUInt16LE_append {n : Nat} (h : n < 256 ^ 2) (rest : Bytes) :
    readUInt16LE (toLittleEndian 2 n ++ rest) = .ok (n, rest) := by
  have hvalue := ofLittleEndian_toLittleEndian h
  simp only [toLittleEndian, ofLittleEndian] at hvalue
  simp only [toLittleEndian, List.cons_append, List.nil_append, readUInt16LE]
  rw [show (UInt8.ofNat n).toNat + 256 * (UInt8.ofNat (n / 256)).toNat = n by omega]

theorem readInt_payload {item : SqlInfo} {v : Int} {payload : Bytes}
    (h : Payload (.int item v) payload) (rest : Bytes) :
    readInt (payload ++ rest) = .ok (v, rest) := by
  cases h with
  | int k hk hlow hhigh =>
    have hlen : readUInt16LE (toLittleEndian 2 k ++ (toSignedLE k v ++ rest)) =
        .ok (k, toSignedLE k v ++ rest) := readUInt16LE_append (by omega) _
    have htake : (toSignedLE k v ++ rest).take k = toSignedLE k v :=
      List.take_left' (length_toSignedLE k v)
    have hdrop : (toSignedLE k v ++ rest).drop k = rest :=
      List.drop_left' (length_toSignedLE k v)
    have henough : ¬ (toSignedLE k v ++ rest).length < k := by
      rw [List.length_append, length_toSignedLE]
      omega
    have hvalue := signedLE_toSignedLE hlow hhigh
    unfold readInt
    rw [List.append_assoc, hlen]
    show (if k = 0 then _ else _) = _
    rw [if_neg (by omega), if_pos hk, if_neg henough, htake, hdrop, hvalue]

theorem readString_payload {item : SqlInfo} {text : Text} {payload : Bytes}
    (h : Payload (.name item text) payload) (rest : Bytes) :
    readString (payload ++ rest) = .ok (text, rest) := by
  cases h with
  | name hlen =>
    unfold readString
    rw [List.append_assoc, readUInt16LE_append hlen]
    show Except.ok (Utf8.decode ((Utf8.encode text ++ rest).take _),
      (Utf8.encode text ++ rest).drop _) = _
    rw [List.take_left, List.drop_left, Utf8.decode_encode]

/-! Runs of the parser -/

/-- The parser takes one clumplet, however its number is encoded. -/
structure Step (s : Parsing) (item : Item) (s' : Parsing) : Prop where
  goes : item.info ≠ .end_ ∧ item.info ≠ .truncated
  parses : ∀ payload rest, Payload item payload →
    parseItem item.info s (payload ++ rest) = .ok (s', rest)

inductive Run : Parsing → List Item → Parsing → Prop where
  | nil (s : Parsing) : Run s [] s
  | cons {s mid s' : Parsing} {item : Item} {items : List Item} (hstep : Step s item mid)
      (hrun : Run mid items s') : Run s (item :: items) s'

theorem Run.append {s mid s' : Parsing} {items more : List Item} (h : Run s items mid)
    (hmore : Run mid more s') : Run s (items ++ more) s' := by
  induction h with
  | nil => exact hmore
  | cons hstep hrun ih => exact .cons hstep (ih hmore)

theorem Run.take {s s' : Parsing} {items : List Item} (h : Run s items s') (n : Nat) :
    ∃ mid, Run s (items.take n) mid := by
  induction h generalizing n with
  | nil s => exact ⟨s, by rw [List.take_nil]; exact .nil s⟩
  | @cons s mid s' item items hstep hrun ih =>
    cases n with
    | zero => exact ⟨s, .nil s⟩
    | succ n =>
      obtain ⟨last, hlast⟩ := ih n
      exact ⟨last, .cons hstep hlast⟩

/-- The parser stands behind the items of a run, with fuel for what follows. -/
theorem Run.parseItems {s s' : Parsing} {items : List Item} (h : Run s items s') :
    ∀ {bytes rest : Bytes} {fuel : Nat}, Encoded items bytes →
      bytes.length + rest.length ≤ fuel → ∃ left, rest.length ≤ left ∧
        parseItems fuel s (bytes ++ rest) = parseItems left s' rest := by
  induction h with
  | nil s =>
    intro bytes rest fuel hencoded hfuel
    cases hencoded
    exact ⟨fuel, by simpa using hfuel, rfl⟩
  | @cons s mid s' item items hstep hrun ih =>
    intro bytes rest fuel hencoded hfuel
    obtain ⟨⟨hend, htruncated⟩, hparses⟩ := hstep
    cases hencoded with
    | @cons _ payload _ bytes hitem hitems =>
      obtain ⟨fuel, rfl⟩ : ∃ n, fuel = n + 1 := by
        apply Nat.exists_eq_succ_of_ne_zero
        simp only [List.length_cons] at hfuel
        omega
      have hroom : bytes.length + rest.length ≤ fuel := by
        simp only [List.length_cons, List.length_append] at hfuel
        omega
      obtain ⟨left, hleft, heq⟩ := ih hitems hroom
      refine ⟨left, hleft, ?_⟩
      have hone := hparses payload (bytes ++ rest) hitem
      rw [List.cons_append, List.append_assoc, Describe.parseItems, SqlInfo.ofCode_code]
      split
      · rename_i hnone
        cases hnone
      · rename_i heq'
        exact absurd (Option.some.inj heq') hend
      · rename_i item' hitem' hsome
        obtain rfl := Option.some.inj hsome
        rw [hone]
        exact heq

/-! Steps -/

theorem Step.mark {s s' : Parsing} {item : SqlInfo} (hgoes : item ≠ .end_ ∧ item ≠ .truncated)
    (h : ∀ bytes, parseItem item s bytes = .ok (s', bytes)) : Step s (.mark item) s' := by
  refine ⟨hgoes, ?_⟩
  intro payload rest hpayload
  cases hpayload
  exact h rest

theorem Step.int {s s' : Parsing} {item : SqlInfo} {v : Int}
    (hgoes : item ≠ .end_ ∧ item ≠ .truncated)
    (h : ∀ bytes rest, readInt bytes = .ok (v, rest) → parseItem item s bytes = .ok (s', rest)) :
    Step s (.int item v) s' :=
  ⟨hgoes, fun _ rest hpayload => h _ _ (readInt_payload hpayload rest)⟩

theorem Step.name {s s' : Parsing} {item : SqlInfo} {text : Text}
    (hgoes : item ≠ .end_ ∧ item ≠ .truncated)
    (h : ∀ bytes rest, readString bytes = .ok (text, rest) →
      parseItem item s bytes = .ok (s', rest)) : Step s (.name item text) s' :=
  ⟨hgoes, fun _ rest hpayload => h _ _ (readString_payload hpayload rest)⟩

/-- Between two columns of a section. -/
def between (desc : StatementDescription) (side : Side) (columns : List SqlVarDesc) : Parsing :=
  ⟨desc.withVars (columns.map some) side, side, none⟩

/-- Within a column, the last one of the section so far. -/
def within (desc : StatementDescription) (side : Side) (columns : List SqlVarDesc)
    (v : SqlVarDesc) : Parsing :=
  ⟨desc.withVars (columns.map some ++ [some v]) side, side, some (side, columns.length)⟩

section Steps

variable {desc : StatementDescription} {side : Side} {columns : List SqlVarDesc} {v : SqlVarDesc}

theorem of_withVars (vars : Vars) : (desc.withVars vars side).of side = vars := by
  cases side <;> rfl

theorem withVars_withVars (vars vars' : Vars) :
    (desc.withVars vars side).withVars vars' side = desc.withVars vars' side := by
  cases side <;> rfl

theorem startColumn_between : (between desc side columns).startColumn (columns.length + 1) =
    within desc side columns {} := by
  have hseq : (columns.length + 1 : Int) - 1 = columns.length := by omega
  have hassign (v : SqlVarDesc) : Vars.assign (columns.map some) columns.length v =
      columns.map some ++ [some v] := by
    unfold Vars.assign
    rw [if_neg (by omega), Int.toNat_natCast, if_neg (by simp)]
    simp
  unfold Parsing.startColumn between within
  dsimp only
  rw [of_withVars, withVars_withVars, hseq, hassign]

theorem modify_within (f : SqlVarDesc → SqlVarDesc) :
    (within desc side columns v).modify f = .ok (within desc side columns (f v)) := by
  have hlast : (columns.map some ++ [some v]).modify columns.length (Option.map f) =
      columns.map some ++ [some (f v)] := by
    rw [List.modify_eq_take_cons_drop (by simp)]
    simp
  unfold Parsing.modify within
  dsimp only
  rw [if_neg (by omega), Int.toNat_natCast, of_withVars, withVars_withVars, hlast]

theorem Step.property {item : SqlInfo} {n : Int} {f : Int → SqlVarDesc → SqlVarDesc}
    (hgoes : item ≠ .end_ ∧ item ≠ .truncated)
    (h : ∀ s bytes, parseItem item s bytes = s.readProperty bytes f) :
    Step (within desc side columns v) (.int item n) (within desc side columns (f n v)) := by
  apply Step.int hgoes
  intro bytes rest hread
  rw [h, Parsing.readProperty, hread]
  show ((within desc side columns v).modify (f n) >>= fun s => .ok (s, rest)) = _
  rw [modify_within]
  rfl

theorem Step.nameProperty {item : SqlInfo} {name : Option Text} {f : Text → SqlVarDesc → SqlVarDesc}
    (hgoes : item ≠ .end_ ∧ item ≠ .truncated)
    (h : ∀ s bytes, parseItem item s bytes = s.readName bytes f) :
    Step (within desc side columns v) (nameItem item name)
      (within desc side columns (f (name.getD []) v)) := by
  apply Step.name hgoes
  intro bytes rest hread
  rw [h, Parsing.readName, hread]
  show ((within desc side columns v).modify (f (name.getD [])) >>= fun s => .ok (s, rest)) = _
  rw [modify_within]
  rfl

theorem Step.seq : Step (between desc side columns) (.int .sqlda_seq (columns.length + 1))
    (within desc side columns {}) := by
  apply Step.int ⟨by decide, by decide⟩
  intro bytes rest hread
  unfold parseItem
  rw [hread, ← startColumn_between]
  rfl

theorem Step.describeEnd : Step (within desc side columns v) (.mark .describe_end)
    (between desc side (columns ++ [v])) := by
  apply Step.mark ⟨by decide, by decide⟩
  intro bytes
  unfold between
  rw [List.map_append]
  rfl

theorem Step.type {t : Int} (ht : t % 2 = 0) (nullable : Bool) :
    Step (within desc side columns v) (.int .type (t + if nullable then 1 else 0))
      (within desc side columns { v with type := t, nullable := nullable }) := by
  have hbit : (t + if nullable then 1 else 0) - (t + if nullable then 1 else 0) % 2 = t ∧
      decide ((t + if nullable then 1 else 0) % 2 = 1) = nullable := by
    cases nullable with
    | false => simp [ht]
    | true =>
      simp only [if_true, decide_eq_true_eq]
      omega
  have hstep := @Step.property desc side columns v .type (t + if nullable then 1 else 0)
    (fun t v => { v with type := t - t % 2, nullable := t % 2 = 1 }) ⟨by decide, by decide⟩
    fun _ _ => rfl
  rw [hbit.1, hbit.2] at hstep
  exact hstep

/-- The items up to the relation alias. -/
theorem Run.columnHead {w : SqlVarDesc} {field relation : Text} (htype : w.type % 2 = 0)
    (hfield : w.field = some field) (hrelation : w.relation = some relation) :
    Run (between desc side columns)
      [.int .sqlda_seq (columns.length + 1), .int .type (w.type + if w.nullable then 1 else 0),
        .int .sub_type w.subType, .int .scale w.scale, .int .length w.length,
        nameItem .field w.field, nameItem .relation w.relation]
      (within desc side columns
        ⟨w.type, w.nullable, w.subType, w.scale, w.length, w.field, w.relation, none, none, none⟩) := by
  have hsub (v : SqlVarDesc) := @Step.property desc side columns v .sub_type w.subType
    (fun n v => { v with subType := n }) ⟨by decide, by decide⟩ fun _ _ => rfl
  have hscale (v : SqlVarDesc) := @Step.property desc side columns v .scale w.scale
    (fun n v => { v with scale := n }) ⟨by decide, by decide⟩ fun _ _ => rfl
  have hlength (v : SqlVarDesc) := @Step.property desc side columns v .length w.length
    (fun n v => { v with length := n }) ⟨by decide, by decide⟩ fun _ _ => rfl
  have hname (v : SqlVarDesc) := @Step.nameProperty desc side columns v .field w.field
    (fun name v => { v with field := some name }) ⟨by decide, by decide⟩ fun _ _ => rfl
  have htable (v : SqlVarDesc) := @Step.nameProperty desc side columns v .relation w.relation
    (fun name v => { v with relation := some name }) ⟨by decide, by decide⟩ fun _ _ => rfl
  have hlast := htable ⟨w.type, w.nullable, w.subType, w.scale, w.length, w.field, none, none, none,
    none⟩
  rw [hfield] at hname hlast ⊢
  rw [hrelation] at htable hlast ⊢
  exact .cons Step.seq (.cons (Step.type htype w.nullable) (.cons (hsub _) (.cons (hscale _)
    (.cons (hlength _) (.cons (hname _) (.cons hlast (.nil _)))))))

/-- The items from the owner on. -/
theorem Run.columnTail {owner aliasName : Text} :
    Run (within desc side columns v)
      [nameItem .owner (some owner), nameItem .alias_ (some aliasName), .mark .describe_end]
      (between desc side
        (columns ++ [{ v with owner := some owner, aliasName := some aliasName }])) := by
  have howner := @Step.nameProperty desc side columns v .owner (some owner)
    (fun name v => { v with owner := some name }) ⟨by decide, by decide⟩ fun _ _ => rfl
  have halias := @Step.nameProperty desc side columns { v with owner := some owner } .alias_
    (some aliasName) (fun name v => { v with aliasName := some name }) ⟨by decide, by decide⟩
    fun _ _ => rfl
  exact .cons howner (.cons halias (.cons Step.describeEnd (.nil _)))

/-- The items of a column, one after the other. -/
theorem Run.column {w : SqlVarDesc} (hw : w.Told) : Run (between desc side columns)
    (columnItems columns.length w) (between desc side (columns ++ [w])) := by
  obtain ⟨htype, hfield, hrelation, howner, halias⟩ := hw
  obtain ⟨field, hfield⟩ := Option.isSome_iff_exists.mp hfield
  obtain ⟨relation, hrelation⟩ := Option.isSome_iff_exists.mp hrelation
  obtain ⟨owner, howner⟩ := Option.isSome_iff_exists.mp howner
  obtain ⟨aliasName, halias⟩ := Option.isSome_iff_exists.mp halias
  have hhead := @Run.columnHead desc side columns w field relation htype hfield hrelation
  unfold columnItems
  rw [howner, halias, List.append_assoc]
  refine hhead.append ?_
  cases hinner : w.relationAlias with
  | some name =>
    have hstep := @Step.nameProperty desc side columns ⟨w.type, w.nullable, w.subType, w.scale,
      w.length, w.field, w.relation, none, none, none⟩ .relation_alias (some name)
      (fun name v => { v with relationAlias := some name }) ⟨by decide, by decide⟩ fun _ _ => rfl
    have htail := @Run.columnTail desc side columns ⟨w.type, w.nullable, w.subType, w.scale,
      w.length, w.field, w.relation, none, none, some name⟩ owner aliasName
    have hwhole : w = ⟨w.type, w.nullable, w.subType, w.scale, w.length, w.field, w.relation,
      some owner, some aliasName, some name⟩ := by
      rw [← howner, ← halias, ← hinner]
    rw [← hwhole] at htail
    exact .cons hstep htail
  | none =>
    have htail := @Run.columnTail desc side columns ⟨w.type, w.nullable, w.subType, w.scale,
      w.length, w.field, w.relation, none, none, none⟩ owner aliasName
    have hwhole : w = ⟨w.type, w.nullable, w.subType, w.scale, w.length, w.field, w.relation,
      some owner, some aliasName, none⟩ := by
      rw [← howner, ← halias, ← hinner]
    rw [← hwhole] at htail
    exact htail

theorem Run.rest : ∀ {rest before : List SqlVarDesc}, (∀ v ∈ rest, v.Told) →
    Run (between desc side before) (columnsItems before.length rest)
      (between desc side (before ++ rest))
  | [], before, _ => by
    rw [List.append_nil]
    exact .nil _
  | v :: rest, before, h => by
    have hrest := @Run.rest rest (before ++ [v]) fun other hother =>
      h other (List.mem_cons_of_mem v hother)
    rw [List.length_append, List.append_assoc] at hrest
    exact (Run.column (h v List.mem_cons_self)).append hrest

end Steps

/-- A section fills its side, whichever section came before it. -/
theorem Run.section {desc : StatementDescription} {vars side : Side} {columns : List SqlVarDesc}
    (hempty : desc.of side = []) (h : ∀ v ∈ columns, v.Told) :
    Run ⟨desc, vars, none⟩ (sectionItems side columns) (between desc side columns) := by
  have hcolumns := @Run.rest desc side columns [] h
  have hbetween : between desc side [] = ⟨desc, side, none⟩ := by
    cases side <;> cases desc <;> cases hempty <;> rfl
  have hcount : Step ⟨desc, side, none⟩ (.int .describe_vars columns.length) ⟨desc, side, none⟩ := by
    apply Step.int ⟨by decide, by decide⟩
    intro bytes rest hread
    unfold parseItem
    rw [hread]
    rfl
  rw [hbetween] at hcolumns
  refine .cons ?_ (.cons hcount hcolumns)
  cases side with
  | outputs => exact Step.mark ⟨by decide, by decide⟩ fun _ => rfl
  | inputs => exact Step.mark ⟨by decide, by decide⟩ fun _ => rfl

theorem Run.description {d : Description} (h : d.Told) :
    Run {} d.items ⟨d.desc, .inputs, none⟩ := by
  have htype : Step {} (.int .stmt_type d.stmtType) ⟨⟨d.stmtType, [], []⟩, .outputs, none⟩ := by
    apply Step.int ⟨by decide, by decide⟩
    intro bytes rest hread
    unfold parseItem
    rw [hread]
    rfl
  have houtputs := @Run.section ⟨d.stmtType, [], []⟩ .outputs .outputs d.outputs rfl h.outputs
  have hinputs := @Run.section ⟨d.stmtType, [], d.outputs.map some⟩ .outputs .inputs d.inputs rfl
    h.inputs
  exact .cons htype (houtputs.append hinputs)

/-- What the parser does at the item behind a run. -/
theorem Run.parseDescribe {items : List Item} {s : Parsing} {bytes rest : Bytes} {b : UInt8}
    (h : Run {} items s) (hencoded : Encoded items bytes) :
    ∃ fuel, parseDescribe (bytes ++ b :: rest) = Describe.parseItems (fuel + 1) s (b :: rest) := by
  obtain ⟨left, hleft, heq⟩ := @Run.parseItems _ _ _ h bytes (b :: rest) _ hencoded
    (le_of_eq List.length_append.symm)
  obtain ⟨fuel, rfl⟩ : ∃ fuel, left = fuel + 1 := by
    apply Nat.exists_eq_succ_of_ne_zero
    rw [List.length_cons] at hleft
    omega
  exact ⟨fuel, heq⟩

/-- A description is read back from every encoding of it, and a truncated one is refused wherever
it was cut. -/
theorem parseDescribe_inverts {d : Description} (hd : d.Told) :
    (∀ bytes rest, Encoded d.items bytes →
      parseDescribe (bytes ++ SqlInfo.end_.code :: rest) = .ok d.desc) ∧
    ∀ n bytes rest, Encoded (d.items.take n) bytes →
      parseDescribe (bytes ++ SqlInfo.truncated.code :: rest) = .error truncatedError := by
  have hrun := Run.description hd
  constructor
  · intro bytes rest hencoded
    obtain ⟨fuel, heq⟩ := @Run.parseDescribe _ _ _ rest SqlInfo.end_.code hrun hencoded
    rw [heq]
    rfl
  · intro n bytes rest hencoded
    obtain ⟨mid, hmid⟩ := hrun.take n
    obtain ⟨fuel, heq⟩ := @Run.parseDescribe _ _ _ rest SqlInfo.truncated.code hmid hencoded
    rw [heq]
    rfl

theorem parseDescribe_inverts_one : ∃ bytes,
    parseDescribe (bytes ++ [1]) = .ok ⟨1,
      [some ⟨496, true, 0, 0, 4, some [], some [], some [], some [], none⟩],
      [some ⟨448, false, 4, 0, 40, some ['É'], some ['T'], some ['O'], some ['É'],
        some ['X']⟩]⟩ := by
  obtain ⟨d, hd⟩ : ∃ d : Description, d = ⟨1,
    [⟨496, true, 0, 0, 4, some [], some [], some [], some [], none⟩],
    [⟨448, false, 4, 0, 40, some ['É'], some ['T'], some ['O'], some ['É'], some ['X']⟩]⟩ :=
    ⟨_, rfl⟩
  have htold : d.Told := by
    subst hd
    constructor
    · intro v hv
      rw [List.mem_singleton.mp hv]
      exact ⟨rfl, rfl, rfl, rfl, rfl⟩
    · intro v hv
      rw [List.mem_singleton.mp hv]
      exact ⟨rfl, rfl, rfl, rfl, rfl⟩
  obtain ⟨bytes, hbytes⟩ := @encoded_of_fits d.items (by subst hd; decide +kernel)
  have hparsed := (parseDescribe_inverts htold).1 bytes [] hbytes
  subst hd
  exact ⟨bytes, hparsed⟩

end FastFirebird.Describe
