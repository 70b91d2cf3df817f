import FastFirebird.Octets
import FastFirebird.Events

/-! `services/service.ts`: the walk over a response of the service manager, and the output of a
service that is collected from the responses. -/
namespace FastFirebird.ServiceInfo

open Events (ofLatin1)

def Info.end_ : UInt8 := 1
def Info.truncated : UInt8 := 2

def SvcInfo.to_eof : UInt8 := 63

/-- Where a walk stands, and what it has read: a first place and how many bytes from there. -/
structure Walk where
  pos : Nat := 0
  reads : List (Nat × Nat) := []
  deriving Repr, DecidableEq

def Walk.read (w : Walk) (count : Nat) : Walk := ⟨w.pos + count, w.reads ++ [(w.pos, count)]⟩

/-- Nothing is a `RangeError`, which Node throws without a value. -/
def readUInt16LE (buf : Bytes) (w : Walk) : Option Nat × Walk :=
  match buf[w.pos]?, buf[w.pos + 1]? with
  | some low, some high => (some (low.toNat + 256 * high.toNat), w.read 2)
  | _, _ => (none, { w.read 2 with pos := w.pos })

def readString (buf : Bytes) (w : Walk) : Option Text × Walk :=
  match readUInt16LE buf w with
  | (none, w) => (none, w)
  -- `toString` stops at the end of the buffer
  | (some len, w) => (some (ofLatin1 ((buf.drop w.pos).take len)), w.read len)

def skip (buf : Bytes) (w : Walk) : Option Unit × Walk :=
  match readUInt16LE buf w with
  | (none, w) => (none, w)
  | (some len, w) => (some (), { w with pos := w.pos + len })

section
variable {σ : Type}

/-- A round takes a byte at least, so there are no more rounds than bytes. -/
def parseFrom (visit : UInt8 → σ → Walk → Option σ × Walk) (buf : Bytes) :
    Nat → σ → Walk → Option σ × Walk
  | 0, s, w => (some s, w)
  | rounds + 1, s, w =>
    match buf[w.pos]? with
    | none => (some s, w)
    | some item =>
      if item = Info.end_ then (some s, w.read 1)
      else
        match visit item s (w.read 1) with
        | (none, w) => (none, w)
        | (some s, w) => parseFrom visit buf rounds s w

def parseServiceInfo (visit : UInt8 → σ → Walk → Option σ × Walk) (buf : Bytes) (s : σ) :
    Option σ × Walk :=
  parseFrom visit buf buf.length s {}

end

/-! `collectOutput` -/

structure Output where
  done : Bool := true
  chunk : Text := []
  deriving Repr, DecidableEq

def visit (buf : Bytes) (item : UInt8) (o : Output) (w : Walk) : Option Output × Walk :=
  if item = SvcInfo.to_eof then
    match readString buf w with
    | (none, w) => (none, w)
    | (some s, w) => (some { done := (o.chunk ++ s).isEmpty, chunk := o.chunk ++ s }, w)
  else if item = Info.truncated then
    match skip buf w with
    | (none, w) => (none, w)
    | (some _, w) => (some { o with done := false }, w)
  else
    match skip buf w with
    | (none, w) => (none, w)
    | (some _, w) => (some o, w)

inductive Ending where
  | waiting
  | returned (out : Text)
  | failed
  deriving Repr, DecidableEq

/-- How the collection ended, the requests it sent, and the walks over the responses it got. -/
structure Collection where
  ending : Ending
  asked : Nat
  walks : List (Bytes × Walk)
  deriving Repr, DecidableEq

def collectFrom : Text → List Bytes → Collection
  | _, [] => ⟨.waiting, 1, []⟩
  | out, data :: responses =>
    match parseServiceInfo (visit data) data {} with
    | (none, w) => ⟨.failed, 1, [(data, w)]⟩
    | (some o, w) =>
      if o.done then ⟨.returned (out ++ o.chunk), 1, [(data, w)]⟩
      else
        let rest := collectFrom (out ++ o.chunk) responses
        { rest with asked := rest.asked + 1, walks := (data, w) :: rest.walks }

def collectOutput (responses : List Bytes) : Collection := collectFrom [] responses

/-! The responses of a service -/

/-- One cluster of output; the mark says that it did not fit into the response. -/
structure InfoReply where
  chunk : Bytes
  truncated : Bool
  fits : chunk.length < 256 ^ 2

namespace InfoReply

/-- What follows the cluster: the mark has no length. -/
def ending (r : InfoReply) : Bytes := if r.truncated then [Info.truncated, Info.end_] else [Info.end_]

def encode (r : InfoReply) : Bytes :=
  SvcInfo.to_eof :: (toLittleEndian 2 r.chunk.length ++ (r.chunk ++ r.ending))

def last (r : InfoReply) : Bool := r.chunk.isEmpty && !r.truncated

/-- The replies up to the last one, if there is one. -/
def upToLast : List InfoReply → List InfoReply
  | [] => []
  | r :: replies => if r.last then [r] else r :: upToLast replies

def output (replies : List InfoReply) : Text := (upToLast replies).flatMap fun r => ofLatin1 r.chunk

end InfoReply

open InfoReply

/-- Without a last reply there is one more request to be answered. -/
structure Complete (replies : List InfoReply) (c : Collection) : Prop where
  ending : c.ending = if replies.any last then .returned (output replies) else .waiting
  asked : c.asked = (upToLast replies).length + if replies.any last then 0 else 1
  inside : ∀ v ∈ c.walks, ∀ r ∈ v.2.reads, r.1 + r.2 ≤ v.1.length

/-! One response -/

/-- The walk over the cluster of a reply. -/
def cluster (r : InfoReply) : Walk :=
  ⟨3 + r.chunk.length, [(0, 1), (1, 2), (3, r.chunk.length)]⟩

theorem encode_length (r : InfoReply) : r.encode.length = 3 + r.chunk.length + r.ending.length := by
  rw [encode, List.length_cons, List.length_append, length_toLittleEndian, List.length_append]
  omega

theorem encode_cluster (r : InfoReply) : ∃ low high : UInt8,
    r.encode = SvcInfo.to_eof :: low :: high :: (r.chunk ++ r.ending) ∧
      low.toNat + 256 * high.toNat = r.chunk.length := by
  have hvalue := ofLittleEndian_toLittleEndian r.fits
  simp only [toLittleEndian, ofLittleEndian] at hvalue
  refine ⟨UInt8.ofNat r.chunk.length, UInt8.ofNat (r.chunk.length / 256), ?_, by omega⟩
  simp only [encode, toLittleEndian, List.cons_append, List.nil_append]

/-- Behind the cluster stands what ends the reply. -/
theorem encode_behind (r : InfoReply) (k : Nat) : r.encode[3 + r.chunk.length + k]? = r.ending[k]? := by
  have ⟨low, high, hencode, _⟩ := encode_cluster r
  have hindex : 3 + r.chunk.length + k = r.chunk.length + k + 1 + 1 + 1 := by omega
  rw [hencode, hindex, List.getElem?_cons_succ, List.getElem?_cons_succ, List.getElem?_cons_succ,
    List.getElem?_append_right (Nat.le_add_right _ _), Nat.add_sub_cancel_left]

theorem readString_cluster (r : InfoReply) :
    readString r.encode (Walk.read {} 1) = (some (ofLatin1 r.chunk), cluster r) := by
  have ⟨low, high, hencode, hlength⟩ := encode_cluster r
  have hread : readUInt16LE r.encode (Walk.read {} 1) =
      (some r.chunk.length, ⟨3, [(0, 1), (1, 2)]⟩) := by
    rw [hencode, ← hlength]
    rfl
  have htake : (r.encode.drop 3).take r.chunk.length = r.chunk := by
    rw [hencode]
    exact List.take_left
  rw [readString, hread]
  dsimp only
  rw [htake]
  rfl

/-- The first round takes the cluster. -/
theorem parseFrom_cluster (r : InfoReply) (rounds : Nat) :
    parseFrom (visit r.encode) r.encode (rounds + 1) {} {} =
      parseFrom (visit r.encode) r.encode rounds ⟨r.chunk.isEmpty, ofLatin1 r.chunk⟩
        (cluster r) := by
  have ⟨low, high, hencode, _⟩ := encode_cluster r
  have hitem : r.encode[({} : Walk).pos]? = some SvcInfo.to_eof := by
    rw [hencode]
    rfl
  have hempty : (ofLatin1 r.chunk).isEmpty = r.chunk.isEmpty := List.isEmpty_map
  have hvisit : visit r.encode SvcInfo.to_eof {} (Walk.read {} 1) =
      (some ⟨r.chunk.isEmpty, ofLatin1 r.chunk⟩, cluster r) := by
    rw [visit, if_pos rfl, readString_cluster]
    dsimp only
    rw [List.nil_append, hempty]
  rw [parseFrom, hitem]
  dsimp only
  rw [if_neg (by decide), hvisit]

/-- A reply without the mark is read to its end. -/
theorem parseServiceInfo_encode {r : InfoReply} (h : r.truncated = false) :
    parseServiceInfo (visit r.encode) r.encode {} =
      (some ⟨r.chunk.isEmpty, ofLatin1 r.chunk⟩, (cluster r).read 1) := by
  have hrounds : r.encode.length = (2 + r.chunk.length) + 1 + 1 := by
    rw [encode_length, ending, h]
    simp only [Bool.false_eq_true, if_false, List.length_singleton]
    omega
  have hend : r.encode[(cluster r).pos]? = some Info.end_ := by
    have hbehind := encode_behind r 0
    rw [Nat.add_zero, ending, h] at hbehind
    exact hbehind
  rw [parseServiceInfo, hrounds, parseFrom_cluster, parseFrom, hend]
  dsimp only
  rw [if_pos rfl]

/-- The mark has no length: what is skipped for it starts with `isc_info_end`, and behind that there
is nothing to read. -/
theorem parseServiceInfo_truncated {r : InfoReply} (h : r.truncated = true) :
    parseServiceInfo (visit r.encode) r.encode {} =
      (none, { ((cluster r).read 1).read 2 with pos := 4 + r.chunk.length }) := by
  have hrounds : r.encode.length = (3 + r.chunk.length) + 1 + 1 := by
    rw [encode_length, ending, h]
    simp only [if_true, List.length_cons, List.length_nil]
  have hmark : r.encode[(cluster r).pos]? = some Info.truncated := by
    have hbehind := encode_behind r 0
    rw [Nat.add_zero, ending, h] at hbehind
    exact hbehind
  have hnone : r.encode[((cluster r).read 1).pos + 1]? = none := by
    apply List.getElem?_eq_none
    rw [hrounds]
    simp only [Walk.read, cluster]
    omega
  have hskip : skip r.encode ((cluster r).read 1) =
      (none, { ((cluster r).read 1).read 2 with pos := ((cluster r).read 1).pos }) := by
    rw [skip, readUInt16LE, hnone]
    cases r.encode[((cluster r).read 1).pos]? <;> rfl
  have hpos : ((cluster r).read 1).pos = 4 + r.chunk.length := by
    simp only [Walk.read, cluster]
    omega
  rw [parseServiceInfo, hrounds, parseFrom_cluster, parseFrom, hmark]
  dsimp only
  rw [if_neg (by decide), visit, if_neg (by decide), if_pos rfl, hskip, hpos]

theorem cluster_inside {r : InfoReply} (h : r.truncated = false) :
    ∀ p ∈ ((cluster r).read 1).reads, p.1 + p.2 ≤ r.encode.length := by
  have hlength := encode_length r
  rw [ending, h] at hlength
  simp only [Bool.false_eq_true, if_false, List.length_singleton] at hlength
  intro p hp
  simp only [Walk.read, cluster, List.cons_append, List.nil_append, List.mem_cons,
    List.not_mem_nil, or_false] at hp
  rcases hp with rfl | rfl | rfl | rfl <;> dsimp only <;> omega

/-! All responses -/

theorem collectFrom_complete (replies : List InfoReply) :
    ∀ out : Text, (∀ r ∈ upToLast replies, r.truncated = false) →
      (collectFrom out (replies.map encode)).ending =
          (if replies.any last then .returned (out ++ output replies) else .waiting) ∧
        (collectFrom out (replies.map encode)).asked =
          (upToLast replies).length + (if replies.any last then 0 else 1) ∧
        ∀ v ∈ (collectFrom out (replies.map encode)).walks, ∀ p ∈ v.2.reads,
          p.1 + p.2 ≤ v.1.length := by
  induction replies with
  | nil => exact fun _ _ => ⟨rfl, rfl, fun _ h => absurd h List.not_mem_nil⟩
  | cons r replies ih =>
    intro out hmarks
    have hr : r.truncated = false := by
      apply hmarks
      rw [upToLast]
      split <;> exact List.mem_cons_self
    have hinside := cluster_inside hr
    rw [List.map_cons, collectFrom, parseServiceInfo_encode hr]
    dsimp only
    have hlast : r.last = r.chunk.isEmpty := by rw [last, hr, Bool.not_false, Bool.and_true]
    by_cases hempty : r.chunk.isEmpty = true
    · have hr : r.last = true := hlast.trans hempty
      have hany : (r :: replies).any last = true := by rw [List.any_cons, hr, Bool.true_or]
      have hup : upToLast (r :: replies) = [r] := by rw [upToLast, if_pos hr]
      rw [if_pos hempty, hany, output, hup, List.flatMap_singleton]
      refine ⟨rfl, rfl, fun v hv => ?_⟩
      obtain rfl := List.mem_singleton.mp hv
      exact hinside
    · have hr : ¬ r.last = true := by rwa [hlast]
      have hany : (r :: replies).any last = replies.any last := by
        rw [List.any_cons, Bool.eq_false_iff.mpr hr, Bool.false_or]
      have hup : upToLast (r :: replies) = r :: upToLast replies := by rw [upToLast, if_neg hr]
      have hrest : ∀ r ∈ upToLast replies, r.truncated = false := by
        intro r' hr'
        apply hmarks
        rw [hup]
        exact List.mem_cons_of_mem _ hr'
      have ⟨hending, hasked, hwalks⟩ := ih (out ++ ofLatin1 r.chunk) hrest
      rw [if_neg hempty, hany, output, hup, List.flatMap_cons]
      dsimp only
      refine ⟨?_, ?_, ?_⟩
      · rw [hending, List.append_assoc]
        rfl
      · rw [hasked, List.length_cons]
        omega
      · intro v hv
        rcases List.mem_cons.mp hv with rfl | hv
        · exact hinside
        · exact hwalks v hv

/-- A marked reply that is reached ends the collection with an error. -/
theorem collectFrom_failed (replies : List InfoReply) :
    ∀ out : Text, (∃ r ∈ upToLast replies, r.truncated = true) →
      (collectFrom out (replies.map encode)).ending = .failed := by
  induction replies with
  | nil => exact fun _ h => absurd h.choose_spec.1 List.not_mem_nil
  | cons r replies ih =>
    intro out h
    rw [List.map_cons, collectFrom]
    cases hr : r.truncated with
    | true => rw [parseServiceInfo_truncated hr]
    | false =>
      obtain ⟨r', hmem, hmark⟩ := h
      have hne : r' ≠ r := by
        rintro rfl
        exact Bool.noConfusion (hr.symm.trans hmark)
      -- the marked reply comes later, so this one was not the last
      have hlast : ¬ r.last = true := by
        intro hlast
        rw [upToLast, if_pos hlast] at hmem
        exact hne (List.mem_singleton.mp hmem)
      have hempty : ¬ r.chunk.isEmpty = true := by
        intro hempty
        apply hlast
        rw [last, hr, hempty]
        rfl
      rw [upToLast, if_neg hlast] at hmem
      have hmem : r' ∈ upToLast replies := (List.mem_cons.mp hmem).resolve_left hne
      rw [parseServiceInfo_encode hr]
      dsimp only
      rw [if_neg hempty]
      exact ih _ ⟨r', hmem, hmark⟩

/-- The output is collected completely exactly when no reply that is asked for has the mark. -/
theorem collectOutput_complete_iff (replies : List InfoReply) :
    Complete replies (collectOutput (replies.map encode)) ↔
      ∀ r ∈ upToLast replies, r.truncated = false := by
  constructor
  · intro h r hr
    apply Bool.eq_false_iff.mpr
    intro hmark
    have hfailed := collectFrom_failed replies [] ⟨r, hr, hmark⟩
    have hending := h.ending.symm.trans hfailed
    split at hending <;> exact Ending.noConfusion hending
  · intro h
    have ⟨hending, hasked, hinside⟩ := collectFrom_complete replies [] h
    exact ⟨hending, hasked, hinside⟩

/-- The output of a marked reply is lost. -/
theorem collectOutput_loses :
    ¬ Complete [⟨[72, 105], true, by decide⟩, ⟨[], false, by decide⟩]
      (collectOutput ([⟨[72, 105], true, by decide⟩, ⟨[], false, by decide⟩].map encode)) := by
  intro h
  exact absurd h.ending (by decide +kernel)

end FastFirebird.ServiceInfo
