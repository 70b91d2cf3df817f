import FastFirebird.DecFloat
import Mathlib.Tactic.Positivity

/-! The fields of a decimal float, packed and taken apart again. -/
namespace FastFirebird

/-! Declets -/

/-- The digits a declet stands for, by the bits that say which of them are large. -/
def decodeDeclet (x : Nat) : Nat :=
  let p := x >>> 7
  let s := (x >>> 4) &&& 7
  let w := x &&& 7
  let low (n : Nat) := n &&& 1
  let high (n : Nat) := n &&& 6
  if x &&& 8 = 0 then p * 100 + s * 10 + w
  else if high w = 0 then p * 100 + s * 10 + (8 + low w)
  else if high w = 2 then p * 100 + (8 + low s) * 10 + (high s + low w)
  else if high w = 4 then (8 + low p) * 100 + s * 10 + (high p + low w)
  else if high s = 0 then (8 + low p) * 100 + (8 + low s) * 10 + (high p + low w)
  else if high s = 2 then (8 + low p) * 100 + (high p + low s) * 10 + (8 + low w)
  else if high s = 4 then p * 100 + (8 + low s) * 10 + (8 + low w)
  else (8 + low p) * 100 + (8 + low s) * 10 + (8 + low w)

theorem encodeDeclet_facts : ∀ d2 < 10, ∀ d1 < 10, ∀ d0 < 10,
    encodeDeclet d2 d1 d0 < 1024 ∧
      decodeDeclet (encodeDeclet d2 d1 d0) = d2 * 100 + d1 * 10 + d0 := by
  decide +kernel

theorem getD_foldl_set_of_not_mem {entries : List (Nat × Nat)} {k : Nat} (table : List Nat)
    (h : ∀ v, (k, v) ∉ entries) :
    (entries.foldl (fun table entry => table.set entry.1 entry.2) table).getD k 0 =
      table.getD k 0 := by
  induction entries generalizing table with
  | nil => rfl
  | cons entry entries ih =>
    have hne : entry.1 ≠ k := by
      intro heq
      apply h entry.2
      rw [← heq]
      exact List.mem_cons_self
    rw [List.foldl_cons, ih _ fun v hv => h v (List.mem_cons_of_mem _ hv)]
    simp only [List.getD_eq_getElem?_getD, List.getElem?_set_ne hne]

/-- What has been written under a key is found there, if nothing else is written under it. -/
theorem getD_foldl_set {entries : List (Nat × Nat)} {k v : Nat} (table : List Nat)
    (hmem : (k, v) ∈ entries) (hone : ∀ w, (k, w) ∈ entries → w = v) (hk : k < table.length) :
    (entries.foldl (fun table entry => table.set entry.1 entry.2) table).getD k 0 = v := by
  induction entries generalizing table with
  | nil => cases hmem
  | cons entry entries ih =>
    have hlater (w : Nat) (hw : (k, w) ∈ entries) : w = v := hone w (List.mem_cons_of_mem _ hw)
    rw [List.foldl_cons]
    by_cases hin : (k, v) ∈ entries
    · apply ih _ hin hlater
      rw [List.length_set]
      exact hk
    · have hentry : entry = (k, v) := by
        rcases List.mem_cons.mp hmem with h | h
        · exact h.symm
        · exact absurd h hin
      have hnone (w : Nat) : (k, w) ∉ entries := by
        intro hw
        rw [hlater w hw] at hw
        exact hin hw
      rw [getD_foldl_set_of_not_mem _ hnone, hentry, List.getD_eq_getElem?_getD,
        List.getElem?_set_self hk]
      rfl

theorem mem_dpdEntries {entry : Nat × Nat} :
    entry ∈ dpdEntries ↔ ∃ d2 < 10, ∃ d1 < 10, ∃ d0 < 10,
      entry = (encodeDeclet d2 d1 d0, d2 * 100 + d1 * 10 + d0) := by
  simp only [dpdEntries, List.mem_flatMap, List.mem_map, List.mem_range]
  constructor
  · rintro ⟨d2, h2, d1, h1, d0, h0, rfl⟩
    exact ⟨d2, h2, d1, h1, d0, h0, rfl⟩
  · rintro ⟨d2, h2, d1, h1, d0, h0, rfl⟩
    exact ⟨d2, h2, d1, h1, d0, h0, rfl⟩

theorem dpdToInt_encodeDeclet {d2 d1 d0 : Nat} (h2 : d2 < 10) (h1 : d1 < 10) (h0 : d0 < 10) :
    dpdToInt (encodeDeclet d2 d1 d0) = d2 * 100 + d1 * 10 + d0 := by
  have hfacts := encodeDeclet_facts d2 h2 d1 h1 d0 h0
  apply getD_foldl_set
  · exact mem_dpdEntries.mpr ⟨d2, h2, d1, h1, d0, h0, rfl⟩
  · intro w hw
    obtain ⟨e2, g2, e1, g1, e0, g0, heq⟩ := mem_dpdEntries.mp hw
    obtain ⟨hkey, hvalue⟩ := Prod.mk.inj heq
    have hother := (encodeDeclet_facts e2 g2 e1 g1 e0 g0).2
    rw [← hkey, hfacts.2] at hother
    omega
  · rw [List.length_replicate]
    exact hfacts.1

theorem padStart_three : ∀ d2 < 10, ∀ d1 < 10, ∀ d0 < 10,
    padStart 3 '0' (Nat.toDigits 10 (d2 * 100 + d1 * 10 + d0)) =
      [d2.digitChar, d1.digitChar, d0.digitChar] := by
  decide +kernel

theorem digit_lt {c : Char} (h : c.isDigit = true) : c.toNat - 48 < 10 := by
  have := isDigit_bounds h
  omega

theorem digitChar_of_isDigit {c : Char} (h : c.isDigit = true) : (c.toNat - 48).digitChar = c := by
  have hbounds := isDigit_bounds h
  apply Char.toNat_inj.mp
  rw [Nat.toNat_digitChar_of_lt_ten (digit_lt h)]
  omega

/-! Rows of declets -/

def decletsValue (declets : List Nat) : Nat := declets.foldl (fun v x => v * 1024 + x) 0

theorem decletsValue_concat (declets : List Nat) (x : Nat) :
    decletsValue (declets ++ [x]) = decletsValue declets * 1024 + x := by
  simp [decletsValue]

theorem decletsValue_lt {declets : List Nat} (h : ∀ x ∈ declets, x < 1024) :
    decletsValue declets < 1024 ^ declets.length := by
  induction declets using List.reverseRecOn with
  | nil => simp [decletsValue]
  | append_singleton declets x ih =>
    have hx := h x (by simp)
    have hrest := ih fun y hy => h y (List.mem_append_left _ hy)
    rw [decletsValue_concat, List.length_append, List.length_singleton, Nat.pow_succ]
    omega

theorem decletDigits_succ (n v : Nat) :
    decletDigits (n + 1) v =
      decletDigits n (v >>> 10) ++ padStart 3 '0' (Nat.toDigits 10 (dpdToInt (v % 1024))) := by
  have hmask : v &&& 0x3ff = v % 1024 := Nat.and_two_pow_sub_one_eq_mod v 10
  have hshift (d : Nat) : v >>> ((d + 1) * 10) = v >>> 10 >>> (d * 10) := by
    rw [← Nat.shiftRight_add]
    congr 1
    omega
  simp only [decletDigits, List.range_succ_eq_map, List.reverse_cons, List.flatMap_append,
    List.flatMap_cons, List.flatMap_nil, List.append_nil, Nat.zero_mul, Nat.shiftRight_zero, hmask,
    ← List.map_reverse, List.flatMap_map, Nat.succ_eq_add_one, hshift]

theorem decletDigits_decletsValue {declets : List Nat} (h : ∀ x ∈ declets, x < 1024) :
    decletDigits declets.length (decletsValue declets) =
      declets.flatMap fun x => padStart 3 '0' (Nat.toDigits 10 (dpdToInt x)) := by
  induction declets using List.reverseRecOn with
  | nil => simp only [decletDigits, List.length_nil, List.range_zero, List.reverse_nil, List.flatMap_nil]
  | append_singleton declets x ih =>
    have hx := h x (by simp)
    have hrest := ih fun y hy => h y (List.mem_append_left _ hy)
    have hhigh : (decletsValue declets * 1024 + x) >>> 10 = decletsValue declets := by
      rw [Nat.shiftRight_eq_div_pow]
      omega
    have hlow : (decletsValue declets * 1024 + x) % 1024 = x := by omega
    rw [List.length_append, List.length_singleton, decletDigits_succ, decletsValue_concat, hhigh,
      hlow, hrest, List.flatMap_append, List.flatMap_singleton]

/-- The declets that `packBits` takes its digits for. -/
def decletsOf (count : Nat) (rest : Text) : List Nat :=
  (List.range count).map fun i =>
    encodeDeclet ((rest.getD (i * 3) '0').toNat - 48) ((rest.getD (i * 3 + 1) '0').toNat - 48)
      ((rest.getD (i * 3 + 2) '0').toNat - 48)

theorem decletsOf_succ (count : Nat) (a b c : Char) (rest : Text) :
    decletsOf (count + 1) (a :: b :: c :: rest) =
      encodeDeclet (a.toNat - 48) (b.toNat - 48) (c.toNat - 48) :: decletsOf count rest := by
  simp only [decletsOf, List.range_succ_eq_map, List.map_cons, List.map_map]
  congr 1
  apply List.map_congr_left
  intro i _
  have hthree : (i + 1) * 3 = i * 3 + 3 := by omega
  simp only [Function.comp, Nat.succ_eq_add_one, hthree, List.getD_cons_succ]

@[simp] theorem length_decletsOf (count : Nat) (rest : Text) :
    (decletsOf count rest).length = count := by
  simp [decletsOf]

/-- Every declet is one, and they spell the digits they were made of. -/
theorem decletsOf_spells {count : Nat} {rest : Text} (hdigits : AllDigits rest)
    (hlen : rest.length = count * 3) :
    (∀ x ∈ decletsOf count rest, x < 1024) ∧
      ((decletsOf count rest).flatMap fun x => padStart 3 '0' (Nat.toDigits 10 (dpdToInt x))) =
        rest := by
  induction count generalizing rest with
  | zero =>
    have hnil : rest = [] := List.length_eq_zero_iff.mp (by omega)
    simp [hnil, decletsOf]
  | succ count ih =>
    match rest, hdigits, hlen with
    | [], _, hlen => simp at hlen
    | [_], _, hlen =>
      simp only [List.length_singleton] at hlen
      omega
    | [_, _], _, hlen =>
      simp only [List.length_cons, List.length_nil] at hlen
      omega
    | a :: b :: c :: rest, hdigits, hlen =>
      have ha := hdigits a (by simp)
      have hb := hdigits b (by simp)
      have hc := hdigits c (by simp)
      have hrest : AllDigits rest := fun d hd => hdigits d (by simp [hd])
      have hlen' : rest.length = count * 3 := by
        simp only [List.length_cons] at hlen
        omega
      obtain ⟨hlt, hspell⟩ := ih hrest hlen'
      have hfacts := encodeDeclet_facts _ (digit_lt ha) _ (digit_lt hb) _ (digit_lt hc)
      rw [decletsOf_succ]
      constructor
      · intro x hx
        rcases List.mem_cons.mp hx with rfl | hx
        · exact hfacts.1
        · exact hlt x hx
      · rw [List.flatMap_cons, hspell,
          dpdToInt_encodeDeclet (digit_lt ha) (digit_lt hb) (digit_lt hc),
          padStart_three _ (digit_lt ha) _ (digit_lt hb) _ (digit_lt hc),
          digitChar_of_isDigit ha, digitChar_of_isDigit hb, digitChar_of_isDigit hc]
        rfl

/-! Packing -/

theorem pushBits_toNat {n : Nat} {v : BitVec n} {k x : Nat} (hx : x < 2 ^ k)
    (hfit : v.toNat * 2 ^ k + x < 2 ^ n) :
    (pushBits v k (x : Int)).toNat = v.toNat * 2 ^ k + x := by
  have hxn : x < 2 ^ n := by omega
  have hv : v.toNat * 2 ^ k < 2 ^ n := by omega
  rw [pushBits, BitVec.toNat_or, BitVec.toNat_shiftLeft, BitVec.ofInt_natCast, BitVec.toNat_ofNat,
    Nat.mod_eq_of_lt hxn, Nat.shiftLeft_eq, Nat.mod_eq_of_lt hv, ← Nat.shiftLeft_eq,
    shiftLeft_or hx, Nat.shiftLeft_eq]

theorem foldl_pushBits {n : Nat} {declets : List Nat} (v : BitVec n)
    (h : ∀ x ∈ declets, x < 1024)
    (hfit : (v.toNat + 1) * 1024 ^ declets.length ≤ 2 ^ n) :
    (declets.foldl (fun v (x : Nat) => pushBits v 10 (x : Int)) v).toNat =
      v.toNat * 1024 ^ declets.length + decletsValue declets := by
  induction declets using List.reverseRecOn with
  | nil => simp [decletsValue]
  | append_singleton declets x ih =>
    have hx := h x (by simp)
    have hall : ∀ y ∈ declets, y < 1024 := fun y hy => h y (List.mem_append_left _ hy)
    rw [List.length_append, List.length_singleton, Nat.pow_succ, ← Nat.mul_assoc] at hfit ⊢
    have hvalue := decletsValue_lt hall
    rw [Nat.add_mul, Nat.one_mul] at hfit
    have hrest := ih hall (by rw [Nat.add_mul, Nat.one_mul]; omega)
    rw [List.foldl_append, List.foldl_cons, List.foldl_nil, pushBits_toNat hx, hrest,
      decletsValue_concat]
    · omega
    · rw [hrest]
      omega

/-- The number the fields make, one behind the other. -/
def packed (P M sign combo expCont coefficient : Nat) : Nat :=
  ((sign * 32 + combo) * P + expCont) * M + coefficient

section Packed
variable {P M sign combo expCont coefficient : Nat}

theorem packed_lt (hs : sign < 2) (hc : combo < 32) (he : expCont < P) (hm : coefficient < M) :
    packed P M sign combo expCont coefficient < 64 * P * M := by
  have htop : (sign * 32 + combo + 1) * P ≤ 64 * P := Nat.mul_le_mul_right _ (by omega)
  have hmid : ((sign * 32 + combo) * P + expCont + 1) * M ≤ 64 * P * M := by
    apply Nat.mul_le_mul_right
    rw [Nat.add_mul, Nat.one_mul] at htop
    omega
  rw [Nat.add_mul, Nat.one_mul] at hmid
  simp only [packed]
  omega

theorem packed_mod (hm : coefficient < M) :
    packed P M sign combo expCont coefficient % M = coefficient := by
  rw [packed, Nat.add_comm, Nat.add_mul_mod_self_right, Nat.mod_eq_of_lt hm]

theorem packed_div (hm : coefficient < M) :
    packed P M sign combo expCont coefficient / M = (sign * 32 + combo) * P + expCont := by
  have hpos : 0 < M := by omega
  rw [packed, Nat.add_comm, Nat.add_mul_div_right _ _ hpos, Nat.div_eq_of_lt hm, Nat.zero_add]

theorem packed_expCont (he : expCont < P) (hm : coefficient < M) :
    packed P M sign combo expCont coefficient / M % P = expCont := by
  rw [packed_div hm, Nat.add_comm, Nat.add_mul_mod_self_right, Nat.mod_eq_of_lt he]

theorem packed_top (he : expCont < P) (hm : coefficient < M) :
    packed P M sign combo expCont coefficient / (M * P) = sign * 32 + combo := by
  have hpos : 0 < P := by omega
  rw [← Nat.div_div_eq_div_mul, packed_div hm, Nat.add_comm, Nat.add_mul_div_right _ _ hpos,
    Nat.div_eq_of_lt he, Nat.zero_add]

end Packed

/-! Both formats at once: what their constants have in common -/

structure DecimalFormat.Proper (fmt : DecimalFormat) : Prop where
  bits : fmt.totalBits = 6 + fmt.expContBits + fmt.declets * 10
  short : fmt.expContBits < 16

theorem ByteWidth.proper (byteWidth : ByteWidth) : byteWidth.format.Proper := by
  cases byteWidth
  · exact ⟨by decide, by decide⟩
  · exact ⟨by decide, by decide⟩

theorem ByteWidth.format_width (byteWidth : ByteWidth) :
    byteWidth.format.width = byteWidth.toNat := by
  cases byteWidth <;> decide

/-- The format that `decodeDecFloat` takes a buffer for. -/
theorem ByteWidth.format_of_length {byteWidth : ByteWidth} {buf : List UInt8}
    (h : buf.length = byteWidth.toNat) :
    (if buf.length = 8 then DEC64 else DEC128) = byteWidth.format := by
  rw [h]
  cases byteWidth <;> decide

theorem comboField_facts : ∀ expMsb < 3, ∀ msd < 10, ∃ combo < 30,
    (comboField (Int32.ofNat expMsb) (Int32.ofNat msd)).toInt = ((combo : Nat) : Int) ∧
      splitCombo combo = (expMsb, msd) := by
  decide +kernel

theorem packBits_toNat {fmt : DecimalFormat} (hfmt : fmt.Proper) {neg : Bool} {combo expCont : Nat}
    {rest : Text} (hcombo : combo < 32) (hexp : expCont < 2 ^ fmt.expContBits)
    (hdigits : AllDigits rest) (hlen : rest.length = fmt.declets * 3) :
    (packBits fmt neg combo expCont rest).toNat =
      packed (2 ^ fmt.expContBits) (1024 ^ fmt.declets) neg.toNat combo expCont
        (decletsValue (decletsOf fmt.declets rest)) := by
  have hdeclets := (decletsOf_spells hdigits hlen).1
  have hvalue := decletsValue_lt hdeclets
  have hneg : neg.toNat < 2 := Bool.toNat_lt neg
  have hpow : 64 * 2 ^ fmt.expContBits * 1024 ^ fmt.declets = 2 ^ fmt.totalBits := by
    rw [hfmt.bits, Nat.pow_add, Nat.pow_add, Nat.mul_comm fmt.declets 10, Nat.pow_mul]
  have hlarge : 64 ≤ 2 ^ fmt.totalBits := by
    rw [← hpow, Nat.mul_assoc]
    apply Nat.le_mul_of_pos_right
    positivity
  have hexps : 64 * 2 ^ fmt.expContBits ≤ 2 ^ fmt.totalBits := by
    rw [← hpow]
    apply Nat.le_mul_of_pos_right
    positivity
  have hsign : (if neg then 1 else 0 : BitVec fmt.totalBits).toNat = neg.toNat := by
    cases neg
    · rfl
    · show 1 % 2 ^ fmt.totalBits = 1
      exact Nat.mod_eq_of_lt (by omega)
  -- the bound of every step is the one of the step behind it
  have hfirst : (pushBits (if neg then 1 else 0 : BitVec fmt.totalBits) 5 combo).toNat =
      neg.toNat * 32 + combo := by
    rw [@pushBits_toNat _ _ 5 _ hcombo, hsign]
    · rfl
    · rw [hsign]
      omega
  have hmid : (neg.toNat * 32 + combo + 1) * 2 ^ fmt.expContBits ≤ 64 * 2 ^ fmt.expContBits :=
    Nat.mul_le_mul_right _ (by omega)
  rw [Nat.add_mul, Nat.one_mul] at hmid
  have hsecond : (pushBits (pushBits (if neg then 1 else 0 : BitVec fmt.totalBits) 5 combo)
      fmt.expContBits expCont).toNat = (neg.toNat * 32 + combo) * 2 ^ fmt.expContBits + expCont := by
    rw [pushBits_toNat hexp, hfirst]
    · rw [hfirst]
      omega
  have hfold := foldl_pushBits (pushBits (pushBits (if neg then 1 else 0 : BitVec fmt.totalBits) 5
    combo) fmt.expContBits expCont) hdeclets (by
      rw [hsecond, length_decletsOf, ← hpow]
      apply Nat.mul_le_mul_right
      omega)
  rw [hsecond, length_decletsOf] at hfold
  rw [packed, ← hfold, decletsOf, List.foldl_map]
  rfl

/-- What is packed comes out again. -/
theorem decodeDecFloat_packed (byteWidth : ByteWidth) {neg : Bool} {digits : Text} {biased : Nat}
    (hdigits : AllDigits digits) (hlen : digits.length = byteWidth.format.maxDigits)
    (hbiased : biased < 3 * 2 ^ byteWidth.format.expContBits) :
    decodeDecFloat (bigEndian byteWidth.toNat (packBits byteWidth.format neg
      (comboField (Int32.ofNat (biased / 2 ^ byteWidth.format.expContBits))
        (Int32.ofNat ((digits.getD 0 '0').toNat - 48))).toInt
      ((biased % 2 ^ byteWidth.format.expContBits : Nat) : Int) (digits.drop 1)).toNat) =
      format neg (stripZeros digits) (biased - byteWidth.format.bias) := by
  have hfmt := byteWidth.proper
  have hwidth := byteWidth.format_width
  generalize hf : byteWidth.format = fmt at *
  obtain ⟨c, rest, rfl⟩ : ∃ c rest, digits = c :: rest := by
    apply List.exists_cons_of_length_pos
    rw [hlen]
    exact Nat.succ_pos _
  have hc := hdigits c List.mem_cons_self
  have hrest : AllDigits rest := fun d hd => hdigits d (List.mem_cons_of_mem c hd)
  have hrestlen : rest.length = fmt.declets * 3 := by
    simp only [List.length_cons, DecimalFormat.maxDigits] at hlen
    omega
  have hP : 0 < 2 ^ fmt.expContBits := by positivity
  have hmsb : biased / 2 ^ fmt.expContBits < 3 := (Nat.div_lt_iff_lt_mul hP).mpr hbiased
  have hexpCont : biased % 2 ^ fmt.expContBits < 2 ^ fmt.expContBits := Nat.mod_lt _ hP
  obtain ⟨combo, hcombo, hfield, hsplit⟩ := comboField_facts _ hmsb _ (digit_lt hc)
  obtain ⟨hdeclets, hspell⟩ := decletsOf_spells hrest hrestlen
  have hvalue : decletsValue (decletsOf fmt.declets rest) < 1024 ^ fmt.declets := by
    have := decletsValue_lt hdeclets
    rwa [length_decletsOf] at this
  have hneg : neg.toNat < 2 := Bool.toNat_lt neg
  rw [List.getD_cons_zero, hfield, List.drop_succ_cons, List.drop_zero,
    packBits_toNat hfmt (by omega) hexpCont hrest hrestlen]
  generalize hv : packed (2 ^ fmt.expContBits) (1024 ^ fmt.declets) neg.toNat combo
    (biased % 2 ^ fmt.expContBits) (decletsValue (decletsOf fmt.declets rest)) = v
  have htotal : (2 : Nat) ^ fmt.totalBits = 64 * 2 ^ fmt.expContBits * 1024 ^ fmt.declets := by
    rw [hfmt.bits, Nat.pow_add, Nat.pow_add, Nat.mul_comm fmt.declets 10, Nat.pow_mul]
  have hlt : v < 256 ^ byteWidth.toNat := by
    have hbytes : 256 ^ byteWidth.toNat = 2 ^ fmt.totalBits := by
      rw [← hwidth, DecimalFormat.totalBits, Nat.mul_comm, Nat.pow_mul]
    rw [hbytes, htotal, ← hv]
    exact packed_lt hneg (by omega) hexpCont hvalue
  -- the four fields, one after the other
  have hM : (2 : Nat) ^ (fmt.declets * 10) = 1024 ^ fmt.declets := by
    rw [Nat.mul_comm, Nat.pow_mul]
  have htop : v >>> (fmt.totalBits - 6) = neg.toNat * 32 + combo := by
    have hbits : fmt.totalBits - 6 = fmt.declets * 10 + fmt.expContBits := by
      rw [hfmt.bits]
      omega
    rw [hbits, Nat.shiftRight_eq_div_pow, Nat.pow_add, hM, ← hv, packed_top hexpCont hvalue]
  have hsign : (v >>> (fmt.totalBits - 1)) &&& 1 = neg.toNat := by
    have hbits : fmt.totalBits - 1 = (fmt.totalBits - 6) + 5 := by
      rw [hfmt.bits]
      omega
    rw [hbits, Nat.shiftRight_add, htop, Nat.and_one_is_mod, Nat.shiftRight_eq_div_pow]
    omega
  have hcomboBits : (v >>> (fmt.totalBits - 6)) &&& 0x1f = combo := by
    have hmask : (neg.toNat * 32 + combo) &&& 0x1f = (neg.toNat * 32 + combo) % 32 :=
      Nat.and_two_pow_sub_one_eq_mod _ 5
    rw [htop, hmask]
    omega
  have hexpBits : (v >>> (fmt.totalBits - 6 - fmt.expContBits)) &&&
      ((1 <<< fmt.expContBits) - 1) = biased % 2 ^ fmt.expContBits := by
    have hbits : fmt.totalBits - 6 - fmt.expContBits = fmt.declets * 10 := by
      rw [hfmt.bits]
      omega
    rw [hbits, Nat.one_shiftLeft, Nat.and_two_pow_sub_one_eq_mod, Nat.shiftRight_eq_div_pow, hM,
      ← hv, packed_expCont hexpCont hvalue]
  have hcoeffBits : v &&& ((1 <<< (fmt.declets * 10)) - 1) =
      decletsValue (decletsOf fmt.declets rest) := by
    rw [Nat.one_shiftLeft, Nat.and_two_pow_sub_one_eq_mod, hM, ← hv, packed_mod hvalue]
  have hdecoded := decletDigits_decletsValue hdeclets
  rw [length_decletsOf, hspell] at hdecoded
  have hjoin : ((biased / 2 ^ fmt.expContBits) <<< fmt.expContBits) |||
      (biased % 2 ^ fmt.expContBits) = biased := by
    rw [shiftLeft_or hexpCont, Nat.mul_comm]
    exact Nat.div_add_mod _ _
  have hsmall : ¬ 0b11110 ≤ combo := by omega
  have hmsd : Nat.toDigits 10 (c.toNat - 48) = [c] := by
    rw [Nat.toDigits_of_lt_base (digit_lt hc), digitChar_of_isDigit hc]
  have hsignBool : decide (neg.toNat = 1) = neg := by cases neg <;> rfl
  simp only [decodeDecFloat, ByteWidth.format_of_length (length_bigEndian byteWidth.toNat v), hf,
    ofBigEndian_bigEndian_of_lt hlt, hsign, hcomboBits, hexpBits, hcoeffBits, hsmall, ↓reduceIte,
    hsplit, hjoin, hdecoded, hmsd, hsignBool, List.singleton_append]

/-! Special values -/

theorem decodeDecFloat_special : ∀ byteWidth : ByteWidth,
    (∀ neg, decodeDecFloat (specialDecFloat neg 0b11110 byteWidth) = infinityName neg) ∧
      decodeDecFloat (specialDecFloat false 0b11111 byteWidth) = nanName := by
  intro byteWidth
  cases byteWidth
  · exact ⟨by decide +kernel, by decide +kernel⟩
  · exact ⟨by decide +kernel, by decide +kernel⟩

end FastFirebird
