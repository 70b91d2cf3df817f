import FastFirebird.Utf16
import FastFirebird.Xdr

/-! The writer of `protocol/xdr.ts` with its buffer: what was written is what an appending writer
holds, however the buffer grew and whatever was in it before. -/
namespace FastFirebird.XdrBuffer

/-- What newly allocated memory holds: the octets of each allocation. -/
abbrev Memory := Nat → Nat → UInt8

structure XdrWriter where
  buf : Bytes
  pos : Nat := 0
  allocations : Nat := 1
  deriving Repr, DecidableEq

section Memory

variable (memory : Memory)

/-- `Buffer.allocUnsafe(size)` -/
def allocUnsafe (allocation size : Nat) : Bytes := (List.range size).map (memory allocation)

/-- `new XdrWriter(initialSize)` -/
def newWriter (initialSize : Nat) : XdrWriter := { buf := allocUnsafe memory 0 initialSize }

/-- `data.copy(buf, pos)` -/
def copyAt (buf : Bytes) (pos : Nat) (data : Bytes) : Bytes :=
  buf.take pos ++ data.take (buf.length - pos) ++ buf.drop (pos + data.length)

/-- `buf.writeInt32BE(..., pos)` and its like. -/
def writeAt (buf : Bytes) (pos : Nat) (octets : Bytes) : Except FirebirdError Bytes :=
  if pos + octets.length ≤ buf.length then .ok (copyAt buf pos octets)
  else .error ⟨.other, "Attempt to access memory outside buffer bounds", none⟩

/-- `while (size < needed) size *= 2`; doubling takes no more steps than `needed`. -/
def doubled (needed : Nat) : (fuel size : Nat) → Nat
  | 0, size => size
  | fuel + 1, size => if size < needed then doubled needed fuel (size * 2) else size

namespace XdrWriter

def ensure (n : Nat) (w : XdrWriter) : XdrWriter :=
  if w.pos + n ≤ w.buf.length then w
  else
    let size := doubled (w.pos + n) (w.pos + n) (w.buf.length * 2)
    { w with
      buf := copyAt (allocUnsafe memory w.allocations size) 0 (w.buf.take w.pos)
      allocations := w.allocations + 1 }

/-- The integers: as many octets as are ensured. -/
def writeInt (octets : Bytes) (w : XdrWriter) : Except FirebirdError XdrWriter := do
  let w := w.ensure memory octets.length
  let buf ← writeAt w.buf w.pos octets
  return { w with buf := buf, pos := w.pos + octets.length }

def int32 (v : Number) (w : XdrWriter) : Except FirebirdError XdrWriter :=
  w.writeInt memory (bigEndian 4 v.toUint32)

def uint32 (v : Number) (w : XdrWriter) : Except FirebirdError XdrWriter :=
  w.writeInt memory (bigEndian 4 v.toUint32)

def bigInt64 (v : Int) (w : XdrWriter) : Except FirebirdError XdrWriter := do
  w.writeInt memory (← int64Octets v)

def opaqueFixed (data : Bytes) (w : XdrWriter) : XdrWriter :=
  let w := w.ensure memory (padded data.length)
  let buf := copyAt w.buf w.pos data
  let buf :=
    if data.length < padded data.length then
      copyAt buf (w.pos + data.length) (List.replicate (padded data.length - data.length) 0)
    else buf
  { w with buf := buf, pos := w.pos + padded data.length }

/-- The source's `opaque`. -/
def counted (data : Bytes) (w : XdrWriter) : Except FirebirdError XdrWriter := do
  let w ← w.uint32 memory (.int data.length)
  return w.opaqueFixed memory data

def string (s : List UInt16) (w : XdrWriter) : Except FirebirdError XdrWriter :=
  w.counted memory (Utf16.toUtf8 s)

def raw (data : Bytes) (w : XdrWriter) : XdrWriter :=
  let w := w.ensure memory data.length
  { w with buf := copyAt w.buf w.pos data, pos := w.pos + data.length }

/-- A copy of what was written; the writer starts over in the same buffer. -/
def finish (w : XdrWriter) : Bytes × XdrWriter :=
  (copyAt (allocUnsafe memory w.allocations w.pos) 0 (w.buf.take w.pos),
    { w with pos := 0, allocations := w.allocations + 1 })

end XdrWriter

/-! Refinement -/

/-- The buffer begins with what the appending writer `a` holds. -/
structure Holds (w : XdrWriter) (a : FastFirebird.XdrWriter) : Prop where
  sized : 0 < w.buf.length
  within : w.pos ≤ w.buf.length
  written : w.buf.take w.pos = a.buf

theorem length_allocUnsafe (allocation size : Nat) :
    (allocUnsafe memory allocation size).length = size := by
  rw [allocUnsafe, List.length_map, List.length_range]

theorem newWriter_holds {initialSize : Nat} (h : 0 < initialSize) :
    Holds (newWriter memory initialSize) {} := by
  have hlen := length_allocUnsafe memory 0 initialSize
  exact ⟨hlen.symm ▸ h, Nat.zero_le _, rfl⟩

theorem copyAt_fits {buf data : Bytes} {pos : Nat} (h : pos + data.length ≤ buf.length) :
    copyAt buf pos data = buf.take pos ++ data ++ buf.drop (pos + data.length) := by
  have hroom : data.length ≤ buf.length - pos := by omega
  rw [copyAt, List.take_of_length_le hroom]

theorem length_copyAt {buf data : Bytes} {pos : Nat} (h : pos + data.length ≤ buf.length) :
    (copyAt buf pos data).length = buf.length := by
  rw [copyAt_fits h, List.length_append, List.length_append, List.length_take, List.length_drop]
  omega

/-- What was there up to `pos`, and the data behind it. -/
theorem take_copyAt {buf data : Bytes} {pos : Nat} (h : pos + data.length ≤ buf.length) :
    (copyAt buf pos data).take (pos + data.length) = buf.take pos ++ data := by
  have hlen : (buf.take pos ++ data).length = pos + data.length := by
    rw [List.length_append, List.length_take]
    omega
  rw [copyAt_fits h, List.take_left' hlen]

theorem doubled_enough {needed : Nat} : ∀ {fuel size : Nat}, 0 < size → needed ≤ size + fuel →
    needed ≤ doubled needed fuel size
  | 0, _, _, h => h
  | fuel + 1, size, hpos, h => by
    unfold doubled
    split
    · apply doubled_enough
      · omega
      · omega
    · omega

theorem le_doubled (needed : Nat) : ∀ fuel size : Nat, size ≤ doubled needed fuel size
  | 0, size => le_refl size
  | fuel + 1, size => by
    unfold doubled
    split
    · have hmore := le_doubled needed fuel (size * 2)
      omega
    · exact le_refl size

section Refinement

variable {w : XdrWriter} {a : FastFirebird.XdrWriter}

theorem ensure_holds (h : Holds w a) (n : Nat) : Holds (w.ensure memory n) a ∧
    (w.ensure memory n).pos = w.pos ∧ w.pos + n ≤ (w.ensure memory n).buf.length := by
  unfold XdrWriter.ensure
  split
  · rename_i hroom
    exact ⟨h, rfl, hroom⟩
  · dsimp only
    obtain ⟨size, hsize⟩ : ∃ size,
        size = doubled (w.pos + n) (w.pos + n) (w.buf.length * 2) := ⟨_, rfl⟩
    rw [← hsize]
    have henough : w.pos + n ≤ size := by
      rw [hsize]
      apply doubled_enough
      · have := h.sized
        omega
      · omega
    have hlen := length_allocUnsafe memory w.allocations size
    have hcopied : (w.buf.take w.pos).length = w.pos := by
      rw [List.length_take, Nat.min_eq_left h.within]
    have hfits : 0 + (w.buf.take w.pos).length ≤
        (allocUnsafe memory w.allocations size).length := by
      rw [hcopied, hlen]
      omega
    have hgrown := length_copyAt hfits
    rw [hlen] at hgrown
    have hkept := take_copyAt hfits
    rw [hcopied, Nat.zero_add, List.take_zero, List.nil_append] at hkept
    have hlarger : w.buf.length * 2 ≤ size := by
      rw [hsize]
      exact le_doubled _ _ _
    have hsized := h.sized
    have hwithin := h.within
    rw [← hgrown] at hlarger henough
    refine ⟨⟨?_, ?_, hkept.trans h.written⟩, rfl, henough⟩
    · exact Nat.lt_of_lt_of_le (Nat.mul_pos hsized (by decide)) hlarger
    · exact (Nat.le_add_right _ _).trans henough

/-- Data written where there is room for it. -/
theorem Holds.copied (h : Holds w a) {data : Bytes} (hroom : w.pos + data.length ≤ w.buf.length) :
    Holds { w with buf := copyAt w.buf w.pos data, pos := w.pos + data.length } (a.raw data) := by
  have hlen := length_copyAt hroom
  refine ⟨?_, ?_, ?_⟩
  · rw [hlen]
    exact h.sized
  · rw [hlen]
    exact hroom
  · rw [take_copyAt hroom, h.written]
    rfl

theorem writeInt_holds (h : Holds w a) (octets : Bytes) :
    ∃ w', w.writeInt memory octets = .ok w' ∧ Holds w' (a.raw octets) := by
  obtain ⟨hheld, hpos, hroom⟩ := ensure_holds memory h octets.length
  rw [← hpos] at hroom
  refine ⟨_, ?_, hheld.copied hroom⟩
  unfold XdrWriter.writeInt writeAt
  dsimp only
  rw [if_pos hroom]
  rfl

theorem opaqueFixed_holds (h : Holds w a) (data : Bytes) :
    Holds (w.opaqueFixed memory data) (a.opaqueFixed data) := by
  obtain ⟨hheld, hpos, hroom⟩ := ensure_holds memory h (padded data.length)
  rw [← hpos] at hroom
  have hpadded := le_padded data.length
  unfold XdrWriter.opaqueFixed
  dsimp only
  generalize w.ensure memory (padded data.length) = grown at *
  have hdata := @Holds.copied grown a hheld data (by omega)
  split
  · rename_i hmore
    have hzeros : (List.replicate (padded data.length - data.length) (0 : UInt8)).length =
        padded data.length - data.length := List.length_replicate
    have hlen := @length_copyAt grown.buf data grown.pos (by omega)
    have hboth := @Holds.copied _ _ hdata
      (List.replicate (padded data.length - data.length) (0 : UInt8)) (by
        dsimp only
        rw [hlen, hzeros]
        omega)
    have hend : grown.pos + data.length + (padded data.length - data.length) =
        grown.pos + padded data.length := by omega
    dsimp only at hboth
    rw [hzeros, hend] at hboth
    have happended : (a.raw data).raw (List.replicate (padded data.length - data.length) 0) =
        a.opaqueFixed data := by
      simp only [FastFirebird.XdrWriter.raw, FastFirebird.XdrWriter.opaqueFixed, List.append_assoc]
    rw [← happended]
    exact hboth
  · rename_i hnone
    have hexact : padded data.length = data.length := by omega
    have happended : a.opaqueFixed data = a.raw data := by
      rw [FastFirebird.XdrWriter.opaqueFixed, hexact, Nat.sub_self, List.replicate_zero,
        List.append_nil]
    rw [happended, hexact]
    exact hdata

theorem raw_holds (h : Holds w a) (data : Bytes) : Holds (w.raw memory data) (a.raw data) := by
  obtain ⟨hheld, hpos, hroom⟩ := ensure_holds memory h data.length
  rw [← hpos] at hroom
  exact hheld.copied hroom

theorem finish_holds (h : Holds w a) :
    (w.finish memory).1 = a.buf ∧ Holds (w.finish memory).2 {} := by
  have hlen := length_allocUnsafe memory w.allocations w.pos
  have hcopied : (w.buf.take w.pos).length = w.pos := by
    rw [List.length_take, Nat.min_eq_left h.within]
  have hfits : 0 + (w.buf.take w.pos).length ≤
      (allocUnsafe memory w.allocations w.pos).length := by
    rw [hcopied, hlen]
    omega
  have hall := take_copyAt hfits
  have hsize := length_copyAt hfits
  rw [hlen] at hsize
  rw [hcopied, Nat.zero_add, List.take_zero, List.nil_append,
    List.take_of_length_le (Nat.le_of_eq hsize)] at hall
  refine ⟨hall.trans h.written, ⟨h.sized, Nat.zero_le _, rfl⟩⟩

end Refinement

end Memory

end FastFirebird.XdrBuffer
