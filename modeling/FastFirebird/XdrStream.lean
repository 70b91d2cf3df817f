import FastFirebird.ByteQueue
import FastFirebird.XdrBuffer

/-! Items from the writer of one side to the reads of the other: `protocol/xdr.ts`, the receiving
half of `protocol/transport.ts` and the reads of `protocol/wire.ts`. -/
namespace FastFirebird.XdrStream

open XdrBuffer (Memory Holds newWriter)

/-! Items -/

inductive Item where
  | int32 (v : Int32)
  | uint32 (v : UInt32)
  | int64 (v : Int64)
  | counted (data : Bytes)
  | fixed (data : Bytes)
  | string (s : List UInt16)
  | raw (data : Bytes)
  deriving DecidableEq

/-- What the reader has to know of an item. -/
inductive Kind where
  | int32
  | uint32
  | int64
  | counted
  | fixed (length : Nat)
  | string
  | raw (length : Nat)
  deriving Repr, DecidableEq

namespace Item

def kind : Item → Kind
  | int32 _ => .int32
  | uint32 _ => .uint32
  | int64 _ => .int64
  | counted _ => .counted
  | fixed data => .fixed data.length
  | string _ => .string
  | raw data => .raw data.length

/-- How long the data of an item may be: the padded length is no negative 32-bit number. -/
def Small : Item → Prop
  | counted data => data.length < 2 ^ 31 - 4
  | fixed data => data.length < 2 ^ 31 - 4
  | string s => (Utf16.toUtf8 s).length < 2 ^ 31 - 4
  | raw data => data.length < 2 ^ 31 - 4
  | _ => True

/-- The item as it arrives. -/
def received : Item → Item
  | string s => string (Utf16.units (Utf16.scalars s))
  | item => item

def WellFormed : Item → Prop
  | string s => Utf16.WellFormed s
  | _ => True

theorem WellFormed.received_eq {item : Item} (h : item.WellFormed) : item.received = item := by
  cases item with
  | string s => exact congrArg string (Utf16.WellFormed.units_scalars h)
  | _ => rfl

end Item

/-! Writing -/

section Writing

variable (memory : Memory)

def Item.write : Item → XdrBuffer.XdrWriter → Except FirebirdError XdrBuffer.XdrWriter
  | .int32 v, w => w.int32 memory (.int v.toInt)
  | .uint32 v, w => w.uint32 memory (.int v.toNat)
  | .int64 v, w => w.bigInt64 memory v.toInt
  | .counted data, w => w.counted memory data
  | .fixed data, w => .ok (w.opaqueFixed memory data)
  | .string s, w => w.string memory s
  | .raw data, w => .ok (w.raw memory data)

/-- Items one after the other, and what `finish` gives for them. -/
def writePacket (items : List Item) (w : XdrBuffer.XdrWriter) : Except FirebirdError (Bytes × XdrBuffer.XdrWriter) := do
  let w ← items.foldlM (fun w item => item.write memory w) w
  return w.finish memory

/-- Packet after packet with the same writer. -/
def writePackets : List (List Item) → XdrBuffer.XdrWriter → Except FirebirdError (List Bytes × XdrBuffer.XdrWriter)
  | [], w => .ok ([], w)
  | items :: batches, w => do
    let (packet, w) ← writePacket memory items w
    let (packets, w) ← writePackets batches w
    return (packet :: packets, w)

end Writing

def fixedOctets (data : Bytes) : Bytes :=
  data ++ List.replicate (padded data.length - data.length) 0

def countedOctets (data : Bytes) : Bytes :=
  bigEndian 4 (Number.int data.length).toUint32 ++ fixedOctets data

/-- An item on the wire. -/
def Item.octets : Item → Bytes
  | .int32 v => bigEndian 4 (Number.int v.toInt).toUint32
  | .uint32 v => bigEndian 4 (Number.int v.toNat).toUint32
  | .int64 v => bigEndian 8 (BitVec.ofInt 64 v.toInt).toNat
  | .counted data => countedOctets data
  | .fixed data => fixedOctets data
  | .string s => countedOctets (Utf16.toUtf8 s)
  | .raw data => data

section Written

variable (memory : Memory) {w : XdrBuffer.XdrWriter} {a : FastFirebird.XdrWriter}

theorem counted_holds (h : Holds w a) (data : Bytes) :
    ∃ w', w.counted memory data = .ok w' ∧ Holds w' (a.raw (countedOctets data)) := by
  obtain ⟨mid, hmid, hheld⟩ :=
    XdrBuffer.writeInt_holds memory h (bigEndian 4 (Number.int data.length).toUint32)
  have hboth := XdrBuffer.opaqueFixed_holds memory hheld data
  refine ⟨mid.opaqueFixed memory data, ?_, ?_⟩
  · unfold XdrBuffer.XdrWriter.counted XdrBuffer.XdrWriter.uint32
    rw [hmid]
    rfl
  · have happended : (a.raw (bigEndian 4 (Number.int data.length).toUint32)).opaqueFixed data =
        a.raw (countedOctets data) := by
      simp only [FastFirebird.XdrWriter.raw, FastFirebird.XdrWriter.opaqueFixed, countedOctets,
        fixedOctets, List.append_assoc]
    rw [← happended]
    exact hboth

theorem bigInt64_holds (h : Holds w a) {v : Int} (hlow : -2 ^ 63 ≤ v) (hhigh : v < 2 ^ 63) :
    ∃ w', w.bigInt64 memory v = .ok w' ∧
      Holds w' (a.raw (bigEndian 8 (BitVec.ofInt 64 v).toNat)) := by
  have hoctets : int64Octets v = .ok (bigEndian 8 (BitVec.ofInt 64 v).toNat) := if_pos ⟨hlow, hhigh⟩
  unfold XdrBuffer.XdrWriter.bigInt64
  rw [hoctets]
  generalize bigEndian 8 (BitVec.ofInt 64 v).toNat = octets
  exact XdrBuffer.writeInt_holds memory h octets

theorem write_holds (h : Holds w a) (item : Item) :
    ∃ w', item.write memory w = .ok w' ∧ Holds w' (a.raw item.octets) := by
  cases item with
  | int32 v => exact XdrBuffer.writeInt_holds memory h _
  | uint32 v => exact XdrBuffer.writeInt_holds memory h _
  | int64 v =>
    have hlow := v.le_toInt
    have hhigh := v.toInt_lt
    exact bigInt64_holds memory h hlow hhigh
  | counted data => exact counted_holds memory h data
  | fixed data => exact ⟨_, rfl, XdrBuffer.opaqueFixed_holds memory h data⟩
  | string s => exact counted_holds memory h _
  | raw data => exact ⟨_, rfl, XdrBuffer.raw_holds memory h data⟩

theorem writeItems_holds (items : List Item) : ∀ {w : XdrBuffer.XdrWriter} {a : FastFirebird.XdrWriter},
    Holds w a → ∃ w', items.foldlM (fun w item => item.write memory w) w = .ok w' ∧
      Holds w' (a.raw (items.flatMap Item.octets)) := by
  induction items with
  | nil =>
    intro w a h
    refine ⟨w, rfl, ?_⟩
    rw [List.flatMap_nil, FastFirebird.XdrWriter.raw, List.append_nil]
    exact h
  | cons item items ih =>
    intro w a h
    obtain ⟨mid, hmid, hheld⟩ := write_holds memory h item
    obtain ⟨w', hw', hall⟩ := ih hheld
    refine ⟨w', ?_, ?_⟩
    · rw [List.foldlM_cons, hmid]
      exact hw'
    · rw [List.flatMap_cons]
      simp only [FastFirebird.XdrWriter.raw, List.append_assoc] at hall ⊢
      exact hall

/-- Every packet is its items, whatever packets the writer has finished before. -/
theorem writePackets_octets (batches : List (List Item)) : ∀ {w : XdrBuffer.XdrWriter}, Holds w {} →
    ∃ w', writePackets memory batches w =
      .ok (batches.map fun items => items.flatMap Item.octets, w') := by
  induction batches with
  | nil => exact fun {w} _ => ⟨w, rfl⟩
  | cons items batches ih =>
    intro w h
    obtain ⟨mid, hmid, hheld⟩ := writeItems_holds memory items h
    obtain ⟨hpacket, hnext⟩ := XdrBuffer.finish_holds memory hheld
    obtain ⟨w', hw'⟩ := ih hnext
    refine ⟨w', ?_⟩
    unfold writePackets writePacket
    rw [hmid]
    show (writePackets memory batches (mid.finish memory).2 >>= fun rest =>
      .ok ((mid.finish memory).1 :: rest.1, rest.2)) = _
    rw [hw', hpacket]
    rfl

end Written

/-! Reading -/

/-- A reader: it has its result, or reads `n` bytes next. -/
inductive Read (α : Type) where
  | done (a : α)
  | more (n : Nat) (next : Bytes → Read α)

namespace Read

variable {α β : Type}

def bind : Read α → (α → Read β) → Read β
  | done a, f => f a
  | more n next, f => more n fun data => (next data).bind f

def result : Read α → Option α
  | done a => some a
  | more _ _ => none

/-- No read is of no bytes. -/
inductive Positive : Read α → Prop where
  | done (a : α) : Positive (done a)
  | more {n : Nat} {next : Bytes → Read α} (hn : 0 < n) (hnext : ∀ data, Positive (next data)) :
      Positive (more n next)

/-- What a reader comes to with these bytes and no others, and what it leaves of them. -/
def feed : Read α → Bytes → Read α × Bytes
  | done a, bytes => (done a, bytes)
  | more n next, bytes =>
    if bytes.length < n then (more n next, bytes) else (next (bytes.take n)).feed (bytes.drop n)

theorem Positive.bind {r : Read α} {f : α → Read β} (h : r.Positive) (hf : ∀ a, (f a).Positive) :
    (r.bind f).Positive := by
  induction h with
  | done a => exact hf a
  | more hn hnext ih => exact .more hn ih

theorem feed_more {n : Nat} {data : Bytes} (h : data.length = n) (next : Bytes → Read α)
    (rest : Bytes) : (more n next).feed (data ++ rest) = (next data).feed rest := by
  have henough : ¬ (data ++ rest).length < n := by
    rw [List.length_append]
    omega
  rw [feed, if_neg henough, List.take_left' h, List.drop_left' h]

/-- The reads of the second part begin where the first has ended. -/
theorem feed_bind {r : Read α} {f : α → Read β} {a : α} : ∀ {bytes rest : Bytes},
    r.feed bytes = (done a, rest) → (r.bind f).feed bytes = (f a).feed rest := by
  induction r with
  | done b =>
    intro bytes rest h
    injection h with hdone hrest
    injection hdone with hb
    rw [bind, hb, hrest]
  | more n next ih =>
    intro bytes rest h
    rw [feed] at h
    split at h
    · cases h
    · rename_i henough
      rw [bind, feed, if_neg henough]
      exact ih _ h

/-- Bytes that come later are fed later. -/
theorem feed_append {r : Read α} : ∀ (bytes more : Bytes),
    r.feed (bytes ++ more) = (r.feed bytes).1.feed ((r.feed bytes).2 ++ more) := by
  induction r with
  | done a => exact fun _ _ => rfl
  | more n next ih =>
    intro bytes later
    by_cases hshort : bytes.length < n
    · have hstuck : (Read.more n next).feed bytes = (.more n next, bytes) := by
        rw [feed, if_pos hshort]
      rw [hstuck]
    · have henough : n ≤ bytes.length := by omega
      have hmore : ¬ (bytes ++ later).length < n := by
        rw [List.length_append]
        omega
      rw [feed, if_neg hmore, feed, if_neg hshort, List.take_append_of_le_length henough,
        List.drop_append_of_le_length henough]
      exact ih _ _ _

end Read

/-- `read(n)`, unless nothing is to be read. -/
def readExact (n : Nat) : Read Bytes := if n = 0 then .done [] else .more n .done

/-- `readOpaque` -/
def readCounted : Read Bytes :=
  .more 4 fun data =>
    let len := ofBigEndian data
    if len = 0 then .done []
    else .more (padded len) fun data => .done (data.take len)

def readItem : Kind → Read Item
  | .int32 => .more 4 fun data => .done (.int32 (Int32.ofInt (ofSigned 32 data)))
  | .uint32 => .more 4 fun data =>
    .done (.uint32 (UInt32.ofNat (Number.int (ofSigned 32 data)).toUint32))
  | .int64 => .more 8 fun data => .done (.int64 (Int64.ofInt (ofSigned 64 data)))
  | .counted => readCounted.bind fun data => .done (.counted data)
  | .fixed n => (readExact (padded n)).bind fun data => .done (.fixed (data.take n))
  | .string => readCounted.bind fun data => .done (.string (Utf16.ofUtf8 data))
  | .raw n => (readExact n).bind fun data => .done (.raw data)

def readItems : List Kind → Read (List Item)
  | [] => .done []
  | kind :: kinds =>
    (readItem kind).bind fun item => (readItems kinds).bind fun items => .done (item :: items)

/-! What is written is read -/

theorem readExact_positive (n : Nat) : (readExact n).Positive := by
  unfold readExact
  split
  · exact .done []
  · exact .more (by omega) fun data => .done data

theorem readCounted_positive : readCounted.Positive := by
  refine .more (by decide) fun data => ?_
  dsimp only
  split
  · exact .done []
  · refine .more ?_ fun data => .done _
    exact Nat.lt_of_lt_of_le (by omega) (le_padded _)

theorem readItem_positive (kind : Kind) : (readItem kind).Positive := by
  cases kind with
  | int32 => exact .more (by decide) fun _ => .done _
  | uint32 => exact .more (by decide) fun _ => .done _
  | int64 => exact .more (by decide) fun _ => .done _
  | counted => exact readCounted_positive.bind fun _ => .done _
  | fixed n => exact (readExact_positive _).bind fun _ => .done _
  | string => exact readCounted_positive.bind fun _ => .done _
  | raw n => exact (readExact_positive n).bind fun _ => .done _

theorem readItems_positive (kinds : List Kind) : (readItems kinds).Positive := by
  induction kinds with
  | nil => exact .done []
  | cons kind kinds ih =>
    exact (readItem_positive kind).bind fun _ => ih.bind fun _ => .done _

theorem length_fixedOctets (data : Bytes) : (fixedOctets data).length = padded data.length := by
  have hle := le_padded data.length
  rw [fixedOctets, List.length_append, List.length_replicate]
  omega

theorem take_fixedOctets (data : Bytes) : (fixedOctets data).take data.length = data :=
  List.take_left

theorem readExact_feed {n : Nat} {data : Bytes} (h : data.length = n) (rest : Bytes) :
    (readExact n).feed (data ++ rest) = (.done data, rest) := by
  unfold readExact
  split
  · rename_i hzero
    rw [List.eq_nil_of_length_eq_zero (h.trans hzero)]
    rfl
  · exact Read.feed_more h .done rest

/-- Lengths are far from where the 32-bit numbers end. -/
theorem ofBigEndian_length {n : Nat} (h : n < 2 ^ 32) :
    ofBigEndian (bigEndian 4 (Number.int n).toUint32) = n := by
  have hwrapped : (Number.int n).toUint32 = n := by
    show (BitVec.ofInt 32 n).toNat = n
    rw [BitVec.ofInt_natCast, BitVec.toNat_ofNat, Nat.mod_eq_of_lt h]
  rw [hwrapped, ofBigEndian_bigEndian_of_lt h]

theorem readCounted_feed {data : Bytes} (h : data.length < 2 ^ 31 - 4) (rest : Bytes) :
    readCounted.feed (countedOctets data ++ rest) = (.done data, rest) := by
  have hlen := @ofBigEndian_length data.length (by omega)
  unfold readCounted countedOctets
  rw [List.append_assoc, Read.feed_more (length_bigEndian 4 _)]
  dsimp only
  rw [hlen]
  split
  · rename_i hzero
    rw [List.eq_nil_of_length_eq_zero hzero]
    rfl
  · rw [Read.feed_more (length_fixedOctets data), Read.feed, take_fixedOctets]

/-- Each item is read where it stands, and what follows is left. -/
theorem readItem_feed {item : Item} (h : item.Small) (rest : Bytes) :
    (readItem item.kind).feed (item.octets ++ rest) = (.done item.received, rest) := by
  cases item with
  | int32 v =>
    have hvalue : ofSigned 32 (bigEndian 4 (Number.int v.toInt).toUint32) =
        (Number.int v.toInt).toInt32.toInt := ofSigned_bigEndian (by decide) _
    have hsame : Int32.ofInt (Number.int v.toInt).toInt32.toInt = v := by
      rw [Int32.ofInt_toInt]
      exact Int32.ofInt_toInt v
    show (readItem .int32).feed (bigEndian 4 _ ++ rest) = _
    rw [readItem, Read.feed_more (length_bigEndian 4 _), Read.feed, hvalue, hsame]
    rfl
  | uint32 v =>
    have hvalue : ofSigned 32 (bigEndian 4 (Number.int v.toNat).toUint32) =
        (Number.int v.toNat).toInt32.toInt := ofSigned_bigEndian (by decide) _
    have hwrapped : (Number.int (Number.int v.toNat).toInt32.toInt).toUint32 = v.toNat := by
      have hlt := v.toNat_lt
      show (Int32.ofInt (Int32.ofInt v.toNat).toInt).toBitVec.toNat = v.toNat
      rw [Int32.ofInt_toInt]
      show (BitVec.ofInt 32 v.toNat).toNat = v.toNat
      rw [BitVec.ofInt_natCast, BitVec.toNat_ofNat, Nat.mod_eq_of_lt hlt]
    show (readItem .uint32).feed (bigEndian 4 _ ++ rest) = _
    rw [readItem, Read.feed_more (length_bigEndian 4 _), Read.feed, hvalue, hwrapped,
      UInt32.ofNat_toNat]
    rfl
  | int64 v =>
    have hvalue : ofSigned 64 (bigEndian 8 (BitVec.ofInt 64 v.toInt).toNat) =
        (BitVec.ofInt 64 v.toInt).toInt := ofSigned_bigEndian (by decide) _
    have hsame : Int64.ofInt (BitVec.ofInt 64 v.toInt).toInt = v := by
      show Int64.ofInt (Int64.ofInt v.toInt).toInt = v
      rw [Int64.ofInt_toInt, Int64.ofInt_toInt]
    show (readItem .int64).feed (bigEndian 8 _ ++ rest) = _
    rw [readItem, Read.feed_more (length_bigEndian 8 _), Read.feed, hvalue, hsame]
    rfl
  | counted data => exact Read.feed_bind (readCounted_feed h rest)
  | fixed data =>
    have hread := readExact_feed (length_fixedOctets data) rest
    have hfed := @Read.feed_bind _ _ _ (fun data' => .done (Item.fixed (data'.take data.length))) _ _ _
      hread
    rw [take_fixedOctets] at hfed
    exact hfed
  | string s =>
    have hfed := @Read.feed_bind _ _ _ (fun data => .done (Item.string (Utf16.ofUtf8 data))) _ _ _
      (readCounted_feed h rest)
    rw [Utf16.ofUtf8_toUtf8] at hfed
    exact hfed
  | raw data => exact Read.feed_bind (readExact_feed rfl rest)

theorem readItems_feed {items : List Item} (h : ∀ item ∈ items, item.Small) (rest : Bytes) :
    (readItems (items.map Item.kind)).feed (items.flatMap Item.octets ++ rest) =
      (.done (items.map Item.received), rest) := by
  induction items with
  | nil => rfl
  | cons item items ih =>
    have hfirst := readItem_feed (h item List.mem_cons_self) (items.flatMap Item.octets ++ rest)
    have hothers := ih fun other hother => h other (List.mem_cons_of_mem item hother)
    rw [List.flatMap_cons, List.append_assoc]
    show ((readItem item.kind).bind fun item => _).feed _ = _
    rw [Read.feed_bind hfirst, Read.feed_bind hothers]
    rfl

end FastFirebird.XdrStream
