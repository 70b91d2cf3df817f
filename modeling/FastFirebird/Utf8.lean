import FastFirebird.Packet
import FastFirebird.Scanner

/-! Text as UTF-8, and octets as text: those that spell no character are read as U+FFFD. -/
namespace FastFirebird.Utf8

def encode (text : Text) : Bytes := text.flatMap String.utf8EncodeChar

/-- A character of which octets are still to come; the next of them is within the bounds. -/
structure Pending where
  code : Nat
  needed : Nat
  lower : Nat
  upper : Nat
  deriving Repr, DecidableEq

def replacement : Char := Char.ofNat 0xFFFD

/-- What the first octet of a character tells: the bounds leave out what is spelled with fewer
octets, the surrogates and what is beyond the last character. -/
def first (b : Nat) : Char ⊕ Pending :=
  if b < 0x80 then .inl (Char.ofNat b)
  else if b < 0xC2 then .inl replacement
  else if b < 0xE0 then .inr ⟨b - 0xC0, 1, 0x80, 0xBF⟩
  else if b < 0xF0 then
    .inr ⟨b - 0xE0, 2, if b = 0xE0 then 0xA0 else 0x80, if b = 0xED then 0x9F else 0xBF⟩
  else if b < 0xF5 then
    .inr ⟨b - 0xF0, 3, if b = 0xF0 then 0x90 else 0x80, if b = 0xF4 then 0x8F else 0xBF⟩
  else .inl replacement

/-- One more octet. One that does not belong to what is pending begins a character itself. -/
def next (b : Nat) : Option Pending → Text × Option Pending
  | none =>
    match first b with
    | .inl c => ([c], none)
    | .inr pending => ([], some pending)
  | some p =>
    if p.lower ≤ b ∧ b ≤ p.upper then
      if p.needed = 1 then ([Char.ofNat (p.code * 64 + (b - 0x80))], none)
      else ([], some ⟨p.code * 64 + (b - 0x80), p.needed - 1, 0x80, 0xBF⟩)
    else
      match first b with
      | .inl c => ([replacement, c], none)
      | .inr pending => ([replacement], some pending)

def decodeFrom : Option Pending → Bytes → Text
  | none, [] => []
  | some _, [] => [replacement]
  | pending, b :: bytes =>
    (next b.toNat pending).1 ++ decodeFrom (next b.toNat pending).2 bytes

/-- `buf.toString('utf8')` -/
def decode (bytes : Bytes) : Text := decodeFrom none bytes

/-! What was encoded is decoded -/

theorem char_bounds (c : Char) : c.toNat < 0xD800 ∨ (0xDFFF < c.toNat ∧ c.toNat < 0x110000) :=
  c.valid

theorem decodeFrom_pending {p q : Option Pending} {b : Nat} {bytes : Bytes} (hb : b < 256)
    (h : next b p = ([], q)) : decodeFrom p (UInt8.ofNat b :: bytes) = decodeFrom q bytes := by
  have hbyte : (UInt8.ofNat b).toNat = b := UInt8.toNat_ofNat_of_lt' hb
  have hnext : decodeFrom p (UInt8.ofNat b :: bytes) =
      (next (UInt8.ofNat b).toNat p).1 ++ decodeFrom (next (UInt8.ofNat b).toNat p).2 bytes := by
    cases p <;> rfl
  rw [hnext, hbyte, h]
  rfl

theorem decodeFrom_last {p : Option Pending} {c : Char} {b : Nat} {bytes : Bytes} (hb : b < 256)
    (h : next b p = ([c], none)) :
    decodeFrom p (UInt8.ofNat b :: bytes) = c :: decodeFrom none bytes := by
  have hbyte : (UInt8.ofNat b).toNat = b := UInt8.toNat_ofNat_of_lt' hb
  have hnext : decodeFrom p (UInt8.ofNat b :: bytes) =
      (next (UInt8.ofNat b).toNat p).1 ++ decodeFrom (next (UInt8.ofNat b).toNat p).2 bytes := by
    cases p <;> rfl
  rw [hnext, hbyte, h]
  rfl

/-- The last octet of the character `n`. -/
theorem next_last {n lower upper : Nat} (hlower : lower ≤ n % 64 + 0x80)
    (hupper : n % 64 + 0x80 ≤ upper) :
    next (n % 64 + 0x80) (some ⟨n / 64, 1, lower, upper⟩) = ([Char.ofNat n], none) := by
  have hcode : n / 64 * 64 + (n % 64 + 0x80 - 0x80) = n := by omega
  unfold next
  dsimp only
  rw [if_pos ⟨hlower, hupper⟩, if_pos rfl, hcode]

/-- One octet in the middle. -/
theorem next_more {n needed lower upper : Nat} (hneeded : 0 < needed)
    (hlower : lower ≤ n % 64 + 0x80) (hupper : n % 64 + 0x80 ≤ upper) :
    next (n % 64 + 0x80) (some ⟨n / 64, needed + 1, lower, upper⟩) =
      ([], some ⟨n, needed, 0x80, 0xBF⟩) := by
  have hcode : n / 64 * 64 + (n % 64 + 0x80 - 0x80) = n := by omega
  have hmore : ¬ needed + 1 = 1 := by omega
  unfold next
  dsimp only
  rw [if_pos ⟨hlower, hupper⟩, if_neg hmore, hcode, Nat.add_sub_cancel]

theorem next_two {n : Nat} (hlow : 0x80 ≤ n) (hhigh : n < 0x800) :
    next (n / 64 % 0x20 + 0xC0) none = ([], some ⟨n / 64, 1, 0x80, 0xBF⟩) := by
  have hcode : n / 64 % 0x20 + 0xC0 - 0xC0 = n / 64 := by omega
  unfold next first
  dsimp only
  rw [if_neg (by omega), if_neg (by omega), if_pos (by omega), hcode]

theorem next_three {n : Nat} (hlow : 0x800 ≤ n) (hhigh : n < 0x10000) :
    next (n / 4096 % 0x10 + 0xE0) none =
      ([], some ⟨n / 4096, 2, if n / 4096 = 0 then 0xA0 else 0x80,
        if n / 4096 = 13 then 0x9F else 0xBF⟩) := by
  have hcode : n / 4096 % 0x10 + 0xE0 - 0xE0 = n / 4096 := by omega
  have hfirst : n / 4096 % 0x10 + 0xE0 = 0xE0 ↔ n / 4096 = 0 := by omega
  have hsurrogates : n / 4096 % 0x10 + 0xE0 = 0xED ↔ n / 4096 = 13 := by omega
  unfold next first
  dsimp only
  rw [if_neg (by omega), if_neg (by omega), if_neg (by omega), if_pos (by omega), hcode]
  simp only [hfirst, hsurrogates]

theorem next_four {n : Nat} (hlow : 0x10000 ≤ n) (hhigh : n < 0x110000) :
    next (n / 262144 % 0x08 + 0xF0) none =
      ([], some ⟨n / 262144, 3, if n / 262144 = 0 then 0x90 else 0x80,
        if n / 262144 = 4 then 0x8F else 0xBF⟩) := by
  have hcode : n / 262144 % 0x08 + 0xF0 - 0xF0 = n / 262144 := by omega
  have hfirst : n / 262144 % 0x08 + 0xF0 = 0xF0 ↔ n / 262144 = 0 := by omega
  have hbeyond : n / 262144 % 0x08 + 0xF0 = 0xF4 ↔ n / 262144 = 4 := by omega
  unfold next first
  dsimp only
  rw [if_neg (by omega), if_neg (by omega), if_neg (by omega), if_neg (by omega),
    if_pos (by omega), hcode]
  simp only [hfirst, hbeyond]

theorem decodeFrom_encodeChar (c : Char) (rest : Bytes) :
    decodeFrom none (String.utf8EncodeChar c ++ rest) = c :: decodeFrom none rest := by
  have hbounds := char_bounds c
  have hchar : Char.ofNat c.toNat = c := Char.ofNat_toNat c
  have hval : c.val.toNat = c.toNat := rfl
  unfold String.utf8EncodeChar
  dsimp only
  rw [hval]
  generalize c.toNat = n at *
  split
  · have hfirst : next n none = ([c], none) := by
      unfold next first
      dsimp only
      rw [if_pos (by omega), hchar]
    exact decodeFrom_last (by omega) hfirst
  · split
    · have hlast := @next_last n 0x80 0xBF (by omega) (by omega)
      rw [hchar] at hlast
      rw [List.cons_append, decodeFrom_pending (by omega) (next_two (by omega) (by omega))]
      exact decodeFrom_last (by omega) hlast
    · split
      · have hmiddle := @next_more (n / 64) 1 (if n / 4096 = 0 then 0xA0 else 0x80)
          (if n / 4096 = 13 then 0x9F else 0xBF) (by omega)
          (by split <;> omega) (by split <;> omega)
        have hlast := @next_last n 0x80 0xBF (by omega) (by omega)
        rw [Nat.div_div_eq_div_mul] at hmiddle
        rw [hchar] at hlast
        rw [List.cons_append, decodeFrom_pending (by omega) (next_three (by omega) (by omega)),
          List.cons_append, decodeFrom_pending (by omega) hmiddle]
        exact decodeFrom_last (by omega) hlast
      · have hsecond := @next_more (n / 4096) 2 (if n / 262144 = 0 then 0x90 else 0x80)
          (if n / 262144 = 4 then 0x8F else 0xBF) (by omega)
          (by split <;> omega) (by split <;> omega)
        have hthird := @next_more (n / 64) 1 0x80 0xBF (by omega) (by omega) (by omega)
        have hlast := @next_last n 0x80 0xBF (by omega) (by omega)
        rw [Nat.div_div_eq_div_mul] at hsecond hthird
        rw [hchar] at hlast
        rw [List.cons_append, decodeFrom_pending (by omega) (next_four (by omega) (by omega)),
          List.cons_append, decodeFrom_pending (by omega) hsecond, List.cons_append,
          decodeFrom_pending (by omega) hthird]
        exact decodeFrom_last (by omega) hlast

theorem decode_encode (text : Text) : decode (encode text) = text := by
  unfold decode encode
  induction text with
  | nil => rfl
  | cons c text ih => rw [List.flatMap_cons, decodeFrom_encodeChar, ih]

example : decode [0x61, 0xE2, 0x82, 0xC3, 0xA4, 0xFF] = ['a', replacement, 'ä', replacement] := by
  decide +kernel

end FastFirebird.Utf8
