import FastFirebird.Utf8

/-! Strings of the language: UTF-16 units, among them surrogates that belong to no pair. -/
namespace FastFirebird.Utf16

def isHigh (u : UInt16) : Bool := 0xD800 ≤ u.toNat && u.toNat < 0xDC00

def isLow (u : UInt16) : Bool := 0xDC00 ≤ u.toNat && u.toNat < 0xE000

def unitChar (u : UInt16) : Char := if isHigh u || isLow u then Utf8.replacement else Char.ofNat u.toNat

/-- The characters of a string; a surrogate without its other half is U+FFFD. -/
def scalars : List UInt16 → Text
  | [] => []
  | [u] => [unitChar u]
  | high :: low :: rest =>
    if isHigh high && isLow low then
      Char.ofNat (0x10000 + (high.toNat - 0xD800) * 0x400 + (low.toNat - 0xDC00)) :: scalars rest
    else unitChar high :: scalars (low :: rest)

def charUnits (c : Char) : List UInt16 :=
  if c.toNat < 0x10000 then [UInt16.ofNat c.toNat]
  else [UInt16.ofNat (0xD800 + (c.toNat - 0x10000) / 0x400),
    UInt16.ofNat (0xDC00 + (c.toNat - 0x10000) % 0x400)]

def units (text : Text) : List UInt16 := text.flatMap charUnits

/-- `Buffer.from(s, 'utf8')` -/
def toUtf8 (s : List UInt16) : Bytes := Utf8.encode (scalars s)

/-- `buf.toString('utf8')` -/
def ofUtf8 (bytes : Bytes) : List UInt16 := units (Utf8.decode bytes)

/-- A unit as a character of its own: a surrogate stands as the character `0x100000` behind it. -/
def unitMark (u : UInt16) : Char :=
  if isHigh u || isLow u then Char.ofNat (0x100000 + u.toNat) else Char.ofNat u.toNat

/-- A string as a text with one character for each unit, for the code that walks over units. -/
def ofUnits (s : List UInt16) : Text := s.map unitMark

/-- No surrogate stands alone. -/
def WellFormed (s : List UInt16) : Prop := ∃ text, units text = s

theorem toNat_unit {n : Nat} (h : n < 0x10000) : (UInt16.ofNat n).toNat = n :=
  UInt16.toNat_ofNat_of_lt' h

theorem scalars_char (c : Char) (rest : List UInt16) :
    scalars (charUnits c ++ rest) = c :: scalars rest := by
  have hbounds := Utf8.char_bounds c
  have hchar : Char.ofNat c.toNat = c := Char.ofNat_toNat c
  unfold charUnits
  generalize c.toNat = n at *
  split
  · rename_i hsmall
    have hunit := toNat_unit hsmall
    have hhigh : isHigh (UInt16.ofNat n) = false := by
      simp only [isHigh, hunit, Bool.and_eq_false_iff, decide_eq_false_iff_not]
      omega
    have hlow : isLow (UInt16.ofNat n) = false := by
      simp only [isLow, hunit, Bool.and_eq_false_iff, decide_eq_false_iff_not]
      omega
    have hone : unitChar (UInt16.ofNat n) = c := by
      rw [unitChar, hhigh, hlow, hunit]
      exact hchar
    cases rest with
    | nil =>
      show [unitChar (UInt16.ofNat n)] = [c]
      rw [hone]
    | cons u rest =>
      show scalars (UInt16.ofNat n :: u :: rest) = c :: scalars (u :: rest)
      rw [scalars, hhigh, Bool.false_and, if_neg Bool.false_ne_true, hone]
  · have hhigh := @toNat_unit (0xD800 + (n - 0x10000) / 0x400) (by omega)
    have hlow := @toNat_unit (0xDC00 + (n - 0x10000) % 0x400) (by omega)
    have hpair : (isHigh (UInt16.ofNat (0xD800 + (n - 0x10000) / 0x400)) &&
        isLow (UInt16.ofNat (0xDC00 + (n - 0x10000) % 0x400))) = true := by
      simp only [isHigh, isLow, hhigh, hlow, Bool.and_eq_true, decide_eq_true_eq]
      omega
    have hcode : 0x10000 + (0xD800 + (n - 0x10000) / 0x400 - 0xD800) * 0x400 +
        (0xDC00 + (n - 0x10000) % 0x400 - 0xDC00) = n := by omega
    show scalars (_ :: _ :: rest) = _
    rw [scalars, if_pos hpair, hhigh, hlow, hcode, hchar]

theorem scalars_units (text : Text) : scalars (units text) = text := by
  unfold units
  induction text with
  | nil => rfl
  | cons c text ih => rw [List.flatMap_cons, scalars_char, ih]

/-- What goes out as UTF-8 comes back, its lone surrogates replaced. -/
theorem ofUtf8_toUtf8 (s : List UInt16) : ofUtf8 (toUtf8 s) = units (scalars s) := by
  rw [ofUtf8, toUtf8, Utf8.decode_encode]

theorem WellFormed.units_scalars {s : List UInt16} (h : WellFormed s) : units (scalars s) = s := by
  obtain ⟨text, rfl⟩ := h
  rw [scalars_units]

theorem toNat_ofNat {n : Nat} (h : n.isValidChar) : (Char.ofNat n).toNat = n := by
  rw [Char.ofNat, dif_pos h]
  rfl

theorem unitMark_toNat (u : UInt16) :
    (unitMark u).toNat = if isHigh u || isLow u then 0x100000 + u.toNat else u.toNat := by
  have hbound : u.toNat < 0x10000 := u.toNat_lt
  unfold unitMark
  split
  · exact toNat_ofNat (.inr (by omega))
  · rename_i hplain
    simp only [isHigh, isLow, Bool.or_eq_true, Bool.and_eq_true, decide_eq_true_eq] at hplain
    apply toNat_ofNat
    unfold Nat.isValidChar
    omega

/-- Two units have different characters. -/
theorem unitMark_inj {u v : UInt16} (h : unitMark u = unitMark v) : u = v := by
  have hu : u.toNat < 0x10000 := u.toNat_lt
  have hv : v.toNat < 0x10000 := v.toNat_lt
  have hnat := congrArg Char.toNat h
  rw [unitMark_toNat, unitMark_toNat] at hnat
  apply UInt16.toNat_inj.mp
  split at hnat <;> split at hnat <;> omega

theorem ofUnits_inj {s t : List UInt16} (h : ofUnits s = ofUnits t) : s = t :=
  (List.map_inj_right fun _ _ => unitMark_inj).mp h

theorem length_ofUnits (s : List UInt16) : (ofUnits s).length = s.length := List.length_map _

theorem take_ofUnits (s : List UInt16) (n : Nat) : (ofUnits s).take n = ofUnits (s.take n) :=
  List.map_take.symm

theorem drop_ofUnits (s : List UInt16) (n : Nat) : (ofUnits s).drop n = ofUnits (s.drop n) :=
  List.map_drop.symm

end FastFirebird.Utf16
