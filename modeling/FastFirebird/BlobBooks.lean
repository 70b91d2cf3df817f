import FastFirebird.BlobStore
import Mathlib.Algebra.BigOperators.Group.Finset.Basic
import Mathlib.Algebra.Order.BigOperators.Group.Finset
import Mathlib.Algebra.GroupWithZero.Nat

/-! `readBlobs` reads many blobs at once. What its books say of each of them agrees with what the
server has served and with the replies that are on their way. -/
namespace FastFirebird

deriving instance DecidableEq for PendingRead

/-- The reads that are outstanding, each with the reply that it will get. -/
abbrev Owing := List (PendingRead × Reply)

def repliesTo (p : PendingRead) (q : Owing) : List Reply := (q.filter (·.1 = p)).map (·.2)

@[simp] theorem repliesTo_nil (p : PendingRead) : repliesTo p [] = [] := rfl

theorem repliesTo_append (p : PendingRead) (q q' : Owing) :
    repliesTo p (q ++ q') = repliesTo p q ++ repliesTo p q' := by
  simp only [repliesTo, List.filter_append, List.map_append]

theorem repliesTo_cons (p p' : PendingRead) (r : Reply) (q : Owing) :
    repliesTo p ((p', r) :: q) = if p' = p then r :: repliesTo p q else repliesTo p q := by
  by_cases h : p' = p
  · simp [repliesTo, h]
  · simp [repliesTo, h]

theorem repliesTo_snoc (p p' : PendingRead) (r : Reply) (q : Owing) :
    repliesTo p (q ++ [(p', r)]) = if p' = p then repliesTo p q ++ [r] else repliesTo p q := by
  rw [repliesTo_append, repliesTo_cons]
  split
  · rfl
  · exact List.append_nil _

def PendingRead.isSeg : PendingRead → Bool
  | .seg _ => true
  | _ => false

/-- The blob that the read is for. -/
def PendingRead.index : PendingRead → Option Nat
  | .open i | .seg i => some i
  | .close => none

/-- How many segment requests are outstanding. -/
def segsOwed (q : Owing) : Nat := (q.filter (·.1.isSeg)).length

theorem segsOwed_cons (p : PendingRead) (r : Reply) (q : Owing) :
    segsOwed ((p, r) :: q) = segsOwed q + if p.isSeg then 1 else 0 := by
  by_cases h : p.isSeg = true
  · simp [segsOwed, h]
  · simp [segsOwed, h]

theorem segsOwed_snoc (p : PendingRead) (r : Reply) (q : Owing) :
    segsOwed (q ++ [(p, r)]) = segsOwed q + if p.isSeg then 1 else 0 := by
  by_cases h : p.isSeg = true
  · simp [segsOwed, h]
  · simp [segsOwed, h]

/-! The handle that a blob has at the server -/

/-- Of the `i`-th blob the store holds this handle and no other. -/
def HoldsBlob (handles : Nat → Option OpenBlob) (i : Nat) (held : Option (Nat × OpenBlob)) : Prop :=
  ∀ handle x, x.opened = i → (handles handle = some x ↔ held = some (handle, x))

namespace HoldsBlob

variable {handles handles' : Nat → Option OpenBlob} {i handle : Nat} {held : Option (Nat × OpenBlob)}
  {x y : OpenBlob}

theorem get (h : HoldsBlob handles i (some (handle, x))) (hx : x.opened = i) :
    handles handle = some x := (h handle x hx).mpr rfl

theorem congr (h : HoldsBlob handles i held)
    (hsame : ∀ k y, y.opened = i → (handles' k = some y ↔ handles k = some y)) :
    HoldsBlob handles' i held := fun k y hy => (hsame k y hy).trans (h k y hy)

/-- A handle that nobody had goes to the `i`-th blob. -/
theorem give (h : HoldsBlob handles i none) :
    HoldsBlob (Function.update handles handle (some x)) i (some (handle, x)) := by
  intro k y hy
  by_cases hk : k = handle
  · subst hk
    rw [Function.update_self]
    constructor
    · intro hsame
      rw [Option.some.inj hsame]
    · intro hsame
      rw [(Prod.mk.inj (Option.some.inj hsame)).2]
  · rw [Function.update_of_ne hk, h k y hy]
    constructor
    · intro hnone
      cases hnone
    · intro hsame
      exact absurd (Prod.mk.inj (Option.some.inj hsame)).1.symm hk

/-- The store writes something else against the same handle, or nothing. -/
theorem update (h : HoldsBlob handles i (some (handle, x))) {v : Option OpenBlob}
    (hv : ∀ y, v = some y → y.opened = i) :
    HoldsBlob (Function.update handles handle v) i (v.map fun y => (handle, y)) := by
  intro k y hy
  by_cases hk : k = handle
  · subst hk
    rw [Function.update_self]
    cases v with
    | none =>
      constructor
      · intro hnone
        cases hnone
      · intro hnone
        cases hnone
    | some z =>
      constructor
      · intro hsame
        rw [Option.some.inj hsame]
        rfl
      · intro hsame
        rw [(Prod.mk.inj (Option.some.inj hsame)).2]
  · rw [Function.update_of_ne hk, h k y hy]
    constructor
    · intro hsame
      exact absurd (Prod.mk.inj (Option.some.inj hsame)).1.symm hk
    · intro hsame
      obtain ⟨z, _, hz⟩ := Option.map_eq_some_iff.mp hsame
      exact absurd (Prod.mk.inj hz).1.symm hk

end HoldsBlob

/-- What the store writes against a handle of blob `i` is nothing to the other blobs. -/
theorem update_apart {handles : Nat → Option OpenBlob} {i handle : Nat} {v : Option OpenBlob}
    (hold : ∀ y, handles handle = some y → y.opened = i) (hnew : ∀ y, v = some y → y.opened = i)
    (k : Nat) (y : OpenBlob) (hy : y.opened ≠ i) :
    Function.update handles handle v k = some y ↔ handles k = some y := by
  by_cases hk : k = handle
  · subst hk
    rw [Function.update_self]
    constructor
    · intro h
      exact absurd (hnew y h) hy
    · intro h
      exact absurd (hold y h) hy
  · rw [Function.update_of_ne hk]

section
variable (segs : Nat → Bytes → List Bytes)

/-- A blob that is open and not read to its end; `replies` are those to its segment requests. -/
structure BeingRead (id : Bytes) (i : Nat) (handles : Nat → Option OpenBlob) (handle : Nat)
    (b : BlobState) (replies : List Reply) : Prop where
  known : b.handle = some handle
  store : HoldsBlob handles i (some (handle, ⟨id, i, b.dataSegs + replies.length⟩))
  unfinished : b.eof = false
  unread : b.dataSegs < (segs i id).length
  parts : b.parts = ((segs i id).take b.dataSegs).flatten
  answers : ∀ j r, replies[j]? = some r → ∃ resp, r = .ok resp ∧
    segmentOf resp = (⟨id, i, b.dataSegs + j⟩ : OpenBlob).answer segs
  count : b.inFlight = replies.length
  window : b.inFlight ≤ b.cap
  room : 1 ≤ b.cap ∧ b.cap ≤ pipelineDepth

/-- How far `readBlobs` has come with blob `i`, when `next` is the next one to be opened. -/
inductive Stage (id : Bytes) (i : Nat) (handles : Nat → Option OpenBlob) (next : Nat)
    (b : BlobState) (opens replies : List Reply) : Prop
  | unopened (hnext : next ≤ i) (hblob : b = {}) (hopens : opens = []) (hreplies : replies = [])
      (hstore : HoldsBlob handles i none)
  | opening (r : Response) (hnext : i < next) (hblob : b = {}) (hopens : opens = [.ok r])
      (hreplies : replies = []) (hstore : HoldsBlob handles i (some (r.handle, ⟨id, i, 0⟩)))
  | reading (handle : Nat) (hnext : i < next) (hopens : opens = [])
      (h : BeingRead segs id i handles handle b replies)
  | done (hnext : i < next) (hopens : opens = []) (heof : b.eof = true)
      (hparts : b.parts = (segs i id).flatten) (hcount : b.inFlight = replies.length)
      (hok : ∀ r ∈ replies, ∃ resp, r = .ok resp) (hstore : HoldsBlob handles i none)

/-- Every blob before `head` is read, and the one at `head` is not. -/
structure AtHead (ids : List Bytes) (st : BlobReads) : Prop where
  le : st.head ≤ ids.length
  finished : ∀ i < st.head, (st.blob i).eof = true
  current : st.head < ids.length → (st.blob st.head).eof = false

/-- The state of `readBlobs` against the store and the replies that are due. -/
structure Books (ids : List Bytes) (s : BlobStore) (st : BlobReads) (q : Owing) : Prop where
  blobs : st.blobs.length = ids.length
  opens : s.opens = st.nextToOpen
  stage : ∀ i < ids.length, Stage segs (ids.getD i []) i s.handles st.nextToOpen (st.blob i)
    (repliesTo (.open i) q) (repliesTo (.seg i) q)
  owned : ∀ handle x, s.handles handle = some x → x.opened < ids.length
  known : ∀ x ∈ q, ∀ i, x.1.index = some i → i < ids.length
  head : AtHead ids st
  total : st.totalInFlight = segsOwed q

end

variable {segs : Nat → Bytes → List Bytes} {id : Bytes} {i next : Nat}
  {handles handles' : Nat → Option OpenBlob} {b : BlobState} {opens replies : List Reply}

namespace Stage

/-- The stage of a blob depends on its own handle only. -/
theorem frame {next' : Nat} (h : Stage segs id i handles next b opens replies)
    (hsame : ∀ k y, y.opened = i → (handles' k = some y ↔ handles k = some y))
    (hlater : next ≤ i → next' ≤ i) (hearlier : i < next → i < next') :
    Stage segs id i handles' next' b opens replies := by
  cases h with
  | unopened hnext hblob hopens hreplies hstore =>
    exact .unopened (hlater hnext) hblob hopens hreplies (hstore.congr hsame)
  | opening r hnext hblob hopens hreplies hstore =>
    exact .opening r (hearlier hnext) hblob hopens hreplies (hstore.congr hsame)
  | reading handle hnext hopens h =>
    exact .reading handle (hearlier hnext) hopens { h with store := h.store.congr hsame }
  | done hnext hopens heof hparts hcount hok hstore =>
    exact .done (hearlier hnext) hopens heof hparts hcount hok (hstore.congr hsame)

theorem inFlight (h : Stage segs id i handles next b opens replies) :
    b.inFlight = replies.length := by
  cases h with
  | unopened _ hblob _ hreplies _ => rw [hblob, hreplies]; rfl
  | opening r _ hblob _ hreplies _ => rw [hblob, hreplies]; rfl
  | reading handle _ _ h => exact h.count
  | done _ _ _ _ hcount _ _ => exact hcount

/-- A blob is read while its handle is known and its end has not come. -/
theorem beingRead (h : Stage segs id i handles next b opens replies) {handle : Nat}
    (hhandle : b.handle = some handle) (heof : b.eof = false) :
    i < next ∧ opens = [] ∧ BeingRead segs id i handles handle b replies := by
  cases h with
  | unopened _ hblob _ _ _ =>
    rw [hblob] at hhandle
    cases hhandle
  | opening r _ hblob _ _ _ =>
    rw [hblob] at hhandle
    cases hhandle
  | reading handle' hnext hopens h =>
    have hsame := h.known
    rw [hhandle] at hsame
    obtain rfl := Option.some.inj hsame
    exact ⟨hnext, hopens, h⟩
  | done _ _ hend _ _ _ _ =>
    rw [heof] at hend
    cases hend

/-- A blob that is not open yet. -/
theorem unopened_of_le (h : Stage segs id i handles next b opens replies) (hnext : next ≤ i) :
    b = {} ∧ opens = [] ∧ replies = [] ∧ HoldsBlob handles i none := by
  cases h with
  | unopened _ hblob hopens hreplies hstore => exact ⟨hblob, hopens, hreplies, hstore⟩
  | opening r hlt _ _ _ _ => omega
  | reading handle hlt _ _ => omega
  | done hlt _ _ _ _ _ _ => omega

end Stage

namespace BlobState

/-- A response to a segment request is read. -/
def settle (b : BlobState) : BlobState := { b with inFlight := b.inFlight - 1 }

/-- Segments that are not the last make room for more. -/
def grow (seg : Segment) (b : BlobState) : BlobState :=
  { b with
    parts := b.parts ++ seg.data
    dataSegs := b.dataSegs + 1
    cap := if b.cap ≤ b.dataSegs + 1 then min (b.cap * 2) pipelineDepth else b.cap }

def finish (seg : Segment) (b : BlobState) : BlobState :=
  { b with parts := b.parts ++ seg.data, eof := true }

end BlobState

theorem flatten_take_succ {l : List Bytes} {n : Nat} (h : n < l.length) :
    (l.take (n + 1)).flatten = (l.take n).flatten ++ l.getD n [] := by
  rw [List.take_add_one, List.flatten_append, List.getD_eq_getElem?_getD,
    List.getElem?_eq_getElem h]
  exact congrArg _ (List.append_nil _)

namespace BeingRead

variable {handle : Nat} {r : Reply} {seg : Segment}

/-- One more is asked for, and the answer is the one behind all that are due. -/
theorem ask (h : BeingRead segs id i handles handle b replies) (hroom : b.inFlight + 1 ≤ b.cap)
    {resp : Response}
    (hanswer : segmentOf resp = (⟨id, i, b.dataSegs + replies.length⟩ : OpenBlob).answer segs) :
    BeingRead segs id i
      (Function.update handles handle (some ⟨id, i, b.dataSegs + replies.length + 1⟩)) handle
      { b with inFlight := b.inFlight + 1 } (replies ++ [.ok resp]) := by
  have hlength : (replies ++ [Except.ok resp]).length = replies.length + 1 := List.length_append
  refine ⟨h.known, ?_, h.unfinished, h.unread, h.parts, fun j r hj => ?_, ?_, hroom, h.room⟩
  · rw [hlength]
    exact h.store.update (v := some ⟨id, i, b.dataSegs + replies.length + 1⟩) fun y hy => by
      rw [← Option.some.inj hy]
  · rcases Nat.lt_or_ge j replies.length with hlt | hge
    · rw [List.getElem?_append_left hlt] at hj
      exact h.answers j r hj
    · -- the answer that has just been given is the last
      have hlt := (List.getElem?_eq_some_iff.mp hj).1
      obtain rfl : j = replies.length := by omega
      rw [List.getElem?_append_right hge, Nat.sub_self] at hj
      exact ⟨resp, (Option.some.inj hj).symm, hanswer⟩
  · rw [hlength, ← h.count]

/-- A segment comes that is not the last. -/
theorem grow (h : BeingRead segs id i handles handle b (r :: replies))
    (hseg : seg = (⟨id, i, b.dataSegs⟩ : OpenBlob).answer segs) (hmore : seg.eof = false) :
    BeingRead segs id i handles handle (b.settle.grow seg) replies := by
  have hlater (j : Nat) : b.dataSegs + 1 + j = b.dataSegs + (j + 1) := by omega
  have hcount : b.inFlight = replies.length + 1 := h.count
  have hwindow := h.window
  obtain ⟨hone, hdepth⟩ := h.room
  refine ⟨h.known, ?_, h.unfinished, ?_, ?_, fun j r hj => ?_, ?_, ?_, ?_⟩
  · have hstore := h.store
    rw [List.length_cons, ← hlater] at hstore
    exact hstore
  · rw [hseg] at hmore
    exact Nat.lt_of_not_le (of_decide_eq_false hmore)
  · calc b.parts ++ seg.data
        = ((segs i id).take b.dataSegs).flatten ++ (segs i id).getD b.dataSegs [] := by
          rw [h.parts, hseg]
          rfl
      _ = ((segs i id).take (b.dataSegs + 1)).flatten := (flatten_take_succ h.unread).symm
  · have hanswer := h.answers (j + 1) r hj
    rw [← hlater] at hanswer
    exact hanswer
  · exact Nat.sub_eq_of_eq_add hcount
  -- the window only grows, up to the depth of the pipeline
  · change b.inFlight - 1 ≤ if b.cap ≤ b.dataSegs + 1 then min (b.cap * 2) pipelineDepth else b.cap
    split <;> omega
  · change (1 ≤ if b.cap ≤ b.dataSegs + 1 then min (b.cap * 2) pipelineDepth else b.cap) ∧
      (if b.cap ≤ b.dataSegs + 1 then min (b.cap * 2) pipelineDepth else b.cap) ≤ pipelineDepth
    have hpositive : 1 ≤ pipelineDepth := by decide
    split <;> omega

theorem cap_grow (h : BeingRead segs id i handles handle b replies) (seg : Segment) :
    b.cap ≤ (b.settle.grow seg).cap := by
  have hdepth := h.room.2
  change b.cap ≤ if b.cap ≤ b.dataSegs + 1 then min (b.cap * 2) pipelineDepth else b.cap
  split <;> omega

/-- The last segment comes: the blob is complete. -/
theorem finish (h : BeingRead segs id i handles handle b (r :: replies))
    (hseg : seg = (⟨id, i, b.dataSegs⟩ : OpenBlob).answer segs) (hlast : seg.eof = true) :
    (segs i id).length = b.dataSegs + 1 ∧ (b.settle.finish seg).parts = (segs i id).flatten := by
  have hunread := h.unread
  have hlength : (segs i id).length = b.dataSegs + 1 := by
    rw [hseg] at hlast
    have := of_decide_eq_true hlast
    dsimp only at this
    omega
  refine ⟨hlength, ?_⟩
  calc b.parts ++ seg.data
      = ((segs i id).take b.dataSegs).flatten ++ (segs i id).getD b.dataSegs [] := by
        rw [h.parts, hseg]
        rfl
    _ = ((segs i id).take (segs i id).length).flatten := by
        rw [hlength, flatten_take_succ hunread]
    _ = (segs i id).flatten := by rw [List.take_length]

end BeingRead

namespace BlobReads

variable {st st' : BlobReads}

theorem blob_start {ids : List Bytes} (hst : st.blobs = ids.map fun _ => {}) (i : Nat) :
    st.blob i = {} := by
  rw [BlobReads.blob, hst, List.getD_eq_getElem?_getD, List.getElem?_map]
  cases ids[i]? <;> rfl

/-- One entry is replaced. -/
theorem blob_set {b : BlobState} (hblobs : st'.blobs = st.blobs.set i b) (hi : i < st.blobs.length)
    (j : Nat) : st'.blob j = if j = i then b else st.blob j := by
  rw [BlobReads.blob, BlobReads.blob, hblobs, List.getD_eq_getElem?_getD,
    List.getD_eq_getElem?_getD, List.getElem?_set]
  by_cases h : i = j
  · subst h
    simp [hi]
  · rw [if_neg h, if_neg fun hj => h hj.symm]

/-- `n` more segments of blob `i` have been asked for. -/
def ask (i n : Nat) (st : BlobReads) : BlobReads :=
  { st with
    blobs := st.blobs.set i { st.blob i with inFlight := (st.blob i).inFlight + n }
    unflushed := st.unflushed ++ List.replicate n (.seg i)
    totalInFlight := st.totalInFlight + n }

/-- A response to a segment request of blob `i` is read. -/
def settle (i : Nat) (st : BlobReads) : BlobReads :=
  { st.setBlob i (st.blob i).settle with totalInFlight := st.totalInFlight - 1 }

def receive (i : Nat) (seg : Segment) (st : BlobReads) : BlobReads :=
  st.setBlob i ((st.blob i).grow seg)

/-- The last segment of blob `i` has come, and its close is sent. -/
def finish (i : Nat) (seg : Segment) (st : BlobReads) : BlobReads :=
  let st' := st.setBlob i ((st.blob i).finish seg)
  { st' with unflushed := st'.unflushed ++ [.close], head := st'.nextHead }

theorem ask_blob (hi : i < st.blobs.length) (n : Nat) :
    (st.ask i n).blob i = { st.blob i with inFlight := (st.blob i).inFlight + n } := by
  rw [@blob_set _ _ (st.ask i n) _ rfl hi, if_pos rfl]

theorem settle_blob (hi : i < st.blobs.length) : (st.settle i).blob i = (st.blob i).settle := by
  rw [@blob_set _ _ (st.settle i) _ rfl hi, if_pos rfl]

theorem receive_blobs (hi : i < st.blobs.length) (seg : Segment) :
    ((st.settle i).receive i seg).blobs = st.blobs.set i ((st.blob i).settle.grow seg) := by
  rw [← settle_blob hi]
  exact List.set_set _

theorem finish_blobs (hi : i < st.blobs.length) (seg : Segment) :
    ((st.settle i).finish i seg).blobs = st.blobs.set i ((st.blob i).settle.finish seg) := by
  rw [← settle_blob hi]
  exact List.set_set _

end BlobReads

section
variable {ids : List Bytes} {st st' : BlobReads}

theorem AtHead.same (h : AtHead ids st) (hhead : st'.head = st.head)
    (heof : ∀ j, (st'.blob j).eof = (st.blob j).eof) : AtHead ids st' where
  le := by
    rw [hhead]
    exact h.le
  finished i hi := by
    rw [heof]
    exact h.finished i (hhead ▸ hi)
  current hlt := by
    rw [hhead, heof]
    exact h.current (hhead ▸ hlt)

/-- What stands in front of the first blob that is not read. -/
theorem eof_takeWhile (bs : List BlobState) :
    (∀ j < (bs.takeWhile (·.eof)).length, (bs.getD j {}).eof = true) ∧
      ((bs.takeWhile (·.eof)).length < bs.length →
        (bs.getD (bs.takeWhile (·.eof)).length {}).eof = false) := by
  induction bs with
  | nil => exact ⟨fun j hj => absurd hj (Nat.not_lt_zero j), fun h => absurd h (Nat.lt_irrefl 0)⟩
  | cons b bs ih =>
    obtain ⟨hbefore, hat⟩ := ih
    by_cases hb : b.eof = true
    · rw [List.takeWhile_cons_of_pos hb, List.length_cons, List.length_cons]
      refine ⟨fun j hj => ?_, fun hlt => ?_⟩
      · cases j with
        | zero => exact hb
        | succ j => exact hbefore j (Nat.lt_of_succ_lt_succ hj)
      · exact hat (Nat.lt_of_succ_lt_succ hlt)
    · rw [List.takeWhile_cons_of_neg hb]
      refine ⟨fun j hj => absurd hj (Nat.not_lt_zero j), fun _ => ?_⟩
      exact Bool.eq_false_iff.mpr hb

/-- Past all that is read, from where it stood. -/
theorem AtHead.advance (hblobs : st.blobs.length = ids.length) (hle : st.head ≤ ids.length)
    (hfinished : ∀ i < st.head, (st.blob i).eof = true) (hhead : st'.head = st.nextHead)
    (hsame : st'.blobs = st.blobs) : AtHead ids st' := by
  have hblob (j : Nat) : st'.blob j = st.blob j := by
    rw [BlobReads.blob, BlobReads.blob, hsame]
  have hread (j : Nat) : st.blob (st.head + j) = (st.blobs.drop st.head).getD j {} := by
    rw [BlobReads.blob, List.getD_eq_getElem?_getD, List.getD_eq_getElem?_getD, List.getElem?_drop]
  have hrest : (st.blobs.drop st.head).length = ids.length - st.head := by
    rw [List.length_drop, hblobs]
  have hlength : ((st.blobs.drop st.head).takeWhile (·.eof)).length ≤ ids.length - st.head := by
    rw [← hrest]
    exact (List.takeWhile_prefix _).length_le
  obtain ⟨hbefore, hat⟩ := eof_takeWhile (st.blobs.drop st.head)
  rw [BlobReads.nextHead] at hhead
  refine ⟨by omega, fun i hi => ?_, fun hlt => ?_⟩
  · rw [hblob]
    rcases Nat.lt_or_ge i st.head with hi' | hi'
    · exact hfinished i hi'
    · obtain ⟨j, rfl⟩ := Nat.exists_eq_add_of_le hi'
      rw [hread]
      exact hbefore j (by omega)
  · rw [hblob, hhead, hread]
    exact hat (by omega)

end

/-! How many responses are yet to be read -/

/-- At most, for one blob of `len` segments: its opening, its segments, the window that was asked for
behind its end, its closing. -/
def BlobState.readsLeft (len : Nat) (b : BlobState) : Nat :=
  if b.eof then b.inFlight else if b.handle.isNone then len + 34 else len - b.dataSegs + 33

theorem BlobState.readsLeft_done {len : Nat} (heof : b.eof = true) : b.readsLeft len = b.inFlight :=
  if_pos heof

theorem BlobState.readsLeft_reading {len handle : Nat} (hhandle : b.handle = some handle)
    (heof : b.eof = false) : b.readsLeft len = len - b.dataSegs + 33 := by
  rw [readsLeft, if_neg (Bool.eq_false_iff.mp heof), hhandle]
  rfl

/-- For all blobs, with the closings that are on their way. -/
def readsLeft (segs : Nat → Bytes → List Bytes) (ids : List Bytes) (st : BlobReads) (q : Owing) : Nat :=
  ∑ i ∈ Finset.range ids.length, (st.blob i).readsLeft (segs i (ids.getD i [])).length +
    (repliesTo .close q).length

section
variable {ids : List Bytes} {s s' : BlobStore} {st st' : BlobReads} {q q' : Owing}

theorem readsLeft_start (hst : ∀ i, st.blob i = {}) : readsLeft segs ids st [] =
    ∑ i ∈ Finset.range ids.length, ((segs i (ids.getD i [])).length + 34) := by
  have hblob : ∀ i ∈ Finset.range ids.length,
      (st.blob i).readsLeft (segs i (ids.getD i [])).length =
        (segs i (ids.getD i [])).length + 34 := by
    intro i _
    rw [hst]
    rfl
  exact Finset.sum_congr rfl hblob

theorem readsLeft_of_same (hclose : repliesTo .close q' = repliesTo .close q)
    (hsame : ∀ j, (st'.blob j).readsLeft (segs j (ids.getD j [])).length =
      (st.blob j).readsLeft (segs j (ids.getD j [])).length) :
    readsLeft segs ids st' q' = readsLeft segs ids st q := by
  have hsum := Finset.sum_congr (rfl : Finset.range ids.length = _) fun j _ => hsame j
  rw [readsLeft, readsLeft, hsum, hclose]

/-- One blob has fewer left by `n`, of which `k` went to closings. -/
theorem readsLeft_less {n k : Nat} (hi : i < ids.length)
    (hclose : (repliesTo .close q').length = (repliesTo .close q).length + k)
    (hother : ∀ j, j ≠ i → st'.blob j = st.blob j)
    (hless : (st'.blob i).readsLeft (segs i (ids.getD i [])).length + n + k ≤
      (st.blob i).readsLeft (segs i (ids.getD i [])).length) :
    readsLeft segs ids st' q' + n ≤ readsLeft segs ids st q := by
  have hmem := Finset.mem_range.mpr hi
  have hsum := Finset.sum_congr (rfl : (Finset.range ids.length).erase i = _) fun j hj =>
    congrArg (·.readsLeft (segs j (ids.getD j [])).length) (hother j (Finset.ne_of_mem_erase hj))
  rw [readsLeft, readsLeft, hclose, ← Finset.add_sum_erase _ _ hmem, ← Finset.add_sum_erase _ _ hmem,
    hsum]
  omega

/-! What the steps of `readBlobs` do to its books -/

namespace Books

theorem start (hst : st.blobs = ids.map fun _ => {}) (hnext : st.nextToOpen = 0)
    (hhead : st.head = 0) (htotal : st.totalInFlight = 0) : Books segs ids {} st [] := by
  have hblob := BlobReads.blob_start hst
  refine ⟨by rw [hst, List.length_map], hnext.symm, fun i _ => ?_, ?_, ?_, ⟨?_, ?_, ?_⟩, htotal⟩
  · refine .unopened (by omega) (hblob i) rfl rfl fun handle x _ => ?_
    constructor
    · intro hx
      cases hx
    · intro hx
      cases hx
  · intro handle x hx
    cases hx
  · exact fun x hx => absurd hx List.not_mem_nil
  · omega
  · intro i hi
    omega
  · intro _
    rw [hblob]

/-- A step that concerns blob `i` only. -/
theorem change (h : Books segs ids s st q) (hi : i < ids.length) {b' : BlobState}
    (hblobs : st'.blobs = st.blobs.set i b') (hnext : st'.nextToOpen = st.nextToOpen)
    (hopens : s'.opens = s.opens)
    (hsame : ∀ k y, y.opened ≠ i → (s'.handles k = some y ↔ s.handles k = some y))
    (hreplies : ∀ j, j ≠ i → repliesTo (.open j) q' = repliesTo (.open j) q ∧
      repliesTo (.seg j) q' = repliesTo (.seg j) q)
    (hstage : Stage segs (ids.getD i []) i s'.handles st.nextToOpen b' (repliesTo (.open i) q')
      (repliesTo (.seg i) q'))
    (hknown : ∀ x ∈ q', x ∈ q ∨ x.1.index = some i ∨ x.1.index = none) (hhead : AtHead ids st')
    (htotal : st'.totalInFlight = segsOwed q') : Books segs ids s' st' q' := by
  have hblob := BlobReads.blob_set hblobs (h.blobs.symm ▸ hi)
  refine ⟨?_, ?_, fun j hj => ?_, fun k x hx => ?_, fun x hx j hj => ?_, hhead, htotal⟩
  · rw [hblobs, List.length_set]
    exact h.blobs
  · rw [hopens, hnext]
    exact h.opens
  · rw [hblob, hnext]
    by_cases hji : j = i
    · subst hji
      rw [if_pos rfl]
      exact hstage
    · rw [if_neg hji, (hreplies j hji).1, (hreplies j hji).2]
      refine (h.stage j hj).frame (fun k y hy => hsame k y ?_) (fun h => h) fun h => h
      rw [hy]
      exact hji
  · by_cases hxi : x.opened = i
    · rw [hxi]
      exact hi
    · exact h.owned k x ((hsame k x hxi).mp hx)
  · rcases hknown x hx with hold | hmine | hnone
    · exact h.known x hold j hj
    · rw [hmine] at hj
      rw [← Option.some.inj hj]
      exact hi
    · rw [hnone] at hj
      cases hj

/-- The next blob is opened. -/
theorem opened (h : Books segs ids s st q) (hlt : st.nextToOpen < ids.length) {tx : Nat}
    {r : Reply} (hs : s.take segs (.openBlob tx (ids.getD st.nextToOpen [])) r = some s') :
    Books segs ids s' { st with
      unflushed := st.unflushed ++ [.open st.nextToOpen], nextToOpen := st.nextToOpen + 1 }
      (q ++ [(.open st.nextToOpen, r)]) := by
  obtain ⟨resp, rfl, hfree, rfl⟩ := BlobStore.take_openBlob hs
  obtain ⟨hblob, hopens, hreplies, hstore⟩ := (h.stage _ hlt).unopened_of_le (Nat.le_refl _)
  have hapart := @update_apart s.handles st.nextToOpen resp.handle
    (some ⟨ids.getD st.nextToOpen [], s.opens, 0⟩) (fun y hy => by rw [hfree] at hy; cases hy)
    (fun y hy => by rw [← Option.some.inj hy]; exact h.opens)
  refine ⟨h.blobs, congrArg (· + 1) h.opens, fun i hi => ?_, fun k x hx => ?_, fun x hx i hi => ?_,
    h.head.same rfl fun _ => rfl, ?_⟩
  · rw [repliesTo_snoc, repliesTo_snoc, @if_neg (PendingRead.open st.nextToOpen = .seg i) _ (by simp)]
    by_cases hne : st.nextToOpen = i
    · subst hne
      rw [if_pos rfl, hopens]
      refine .opening resp (Nat.lt_succ_self _) hblob rfl hreplies ?_
      have hgive := @HoldsBlob.give s.handles st.nextToOpen resp.handle
        ⟨ids.getD st.nextToOpen [], s.opens, 0⟩ hstore
      rw [h.opens] at hgive ⊢
      exact hgive
    · rw [if_neg (by simpa using hne)]
      refine (h.stage i hi).frame (fun k y hy => hapart k y ?_) (fun h => ?_) fun h => ?_
      · rw [hy]
        exact fun hi => hne hi.symm
      · exact Nat.lt_of_le_of_ne h hne
      · exact Nat.lt_succ_of_lt h
  · by_cases hxi : x.opened = st.nextToOpen
    · rw [hxi]
      exact hlt
    · exact h.owned k x ((hapart k x hxi).mp hx)
  · rcases List.mem_append.mp hx with hx | hx
    · exact h.known x hx i hi
    · rw [List.mem_singleton.mp hx] at hi
      rw [← Option.some.inj hi]
      exact hlt
  · rw [segsOwed_snoc]
    exact h.total

/-- One more segment is asked for of a blob that is not at its end. -/
theorem asked (h : Books segs ids s st q) (hi : i < ids.length) {handle len : Nat}
    (hhandle : (st.blob i).handle = some handle) (heof : (st.blob i).eof = false)
    (hroom : (st.blob i).inFlight + 1 ≤ (st.blob i).cap) {r : Reply}
    (hs : s.take segs (.getSegment handle len) r = some s') :
    Books segs ids s' (st.ask i 1) (q ++ [(.seg i, r)]) := by
  obtain ⟨hnext, hopens, hread⟩ := (h.stage i hi).beingRead hhandle heof
  have hheld := hread.store.get rfl
  obtain ⟨resp, rfl, hanswer, rfl⟩ := BlobStore.take_getSegment hheld hs
  refine h.change hi rfl rfl rfl ?_ (fun j hj => ?_) ?_ (fun x hx => ?_) ?_ ?_
  · refine update_apart (fun y hy => ?_) fun y hy => ?_
    · rw [hheld] at hy
      rw [← Option.some.inj hy]
    · rw [← Option.some.inj hy]
  · constructor
    · rw [repliesTo_snoc, if_neg (by simp)]
    · rw [repliesTo_snoc, if_neg (by simpa using hj.symm)]
  · rw [repliesTo_snoc, repliesTo_snoc, if_neg (by simp), if_pos rfl]
    exact .reading handle hnext hopens (hread.ask hroom hanswer)
  · rcases List.mem_append.mp hx with hx | hx
    · exact .inl hx
    · rw [List.mem_singleton.mp hx]
      exact .inr (.inl rfl)
  · refine h.head.same rfl fun j => ?_
    rw [BlobReads.blob_set rfl (h.blobs.symm ▸ hi) j]
    split
    · rename_i hji
      rw [hji]
    · rfl
  · rw [segsOwed_snoc, ← h.total]
    rfl

/-- Where the requests wait does not matter. -/
theorem queued (h : Books segs ids s st q) (pending unflushed : List PendingRead) :
    Books segs ids s { st with pending := pending, unflushed := unflushed } q :=
  ⟨h.blobs, h.opens, h.stage, h.owned, h.known, h.head.same rfl fun _ => rfl, h.total⟩

/-- The response to an open is the handle. -/
theorem gotHandle {r : Reply} (h : Books segs ids s st ((.open i, r) :: q))
    (hfull : ∀ k id, segs k id ≠ []) : ∃ resp, r = .ok resp ∧
      Books segs ids s (st.setBlob i { st.blob i with handle := some resp.handle }) q ∧
      readsLeft segs ids (st.setBlob i { st.blob i with handle := some resp.handle }) q + 1 ≤
        readsLeft segs ids st ((.open i, r) :: q) := by
  have hi : i < ids.length := h.known _ List.mem_cons_self i rfl
  have hopens : repliesTo (.open i) ((.open i, r) :: q) = r :: repliesTo (.open i) q := by
    rw [repliesTo_cons, if_pos rfl]
  have hsegs (j : Nat) : repliesTo (.seg j) ((.open i, r) :: q) = repliesTo (.seg j) q := by
    rw [repliesTo_cons, if_neg (by simp)]
  have hstage := h.stage i hi
  rw [hopens, hsegs] at hstage
  cases hstage with
  | unopened _ _ hnil _ _ => cases hnil
  | reading _ _ hnil _ => cases hnil
  | done _ hnil _ _ _ _ _ => cases hnil
  | opening resp hnext hblob hcons hreplies hstore =>
    obtain ⟨rfl, hnil⟩ := List.cons.inj hcons
    have hblobs : st.blobs.length = ids.length := h.blobs
    have heof (j : Nat) : ((st.setBlob i { st.blob i with handle := some resp.handle }).blob j).eof =
        (st.blob j).eof := by
      rw [BlobReads.blob_set rfl (hblobs.symm ▸ hi) j]
      split
      · rename_i hji
        rw [hji]
      · rfl
    refine ⟨resp, rfl, ?_, ?_⟩
    · refine h.change hi rfl rfl rfl (fun _ _ _ => Iff.rfl) (fun j hj => ⟨?_, (hsegs j).symm⟩) ?_
        (fun x hx => .inl (List.mem_cons_of_mem _ hx)) (h.head.same rfl heof) ?_
      · rw [repliesTo_cons, if_neg (by simpa using hj.symm)]
      · rw [hnil, hreplies, hblob]
        refine .reading resp.handle hnext rfl ⟨rfl, hstore, rfl, ?_, rfl, ?_, rfl, ?_, ?_⟩
        · exact List.length_pos_of_ne_nil (hfull _ _)
        · intro j r hj
          cases hj
        · exact Nat.zero_le _
        · change 1 ≤ rampStart ∧ rampStart ≤ pipelineDepth
          decide
      · have htotal := h.total
        rw [segsOwed_cons] at htotal
        exact htotal
    · refine readsLeft_less (k := 0) hi ?_ (fun j hj => ?_) ?_
      · rw [repliesTo_cons, if_neg (by simp)]
        rfl
      · rw [BlobReads.blob_set rfl (hblobs.symm ▸ hi), if_neg hj]
      · rw [BlobReads.blob_set rfl (hblobs.symm ▸ hi), if_pos rfl, hblob]
        simp [BlobState.readsLeft]

/-- A close has been confirmed, or not. -/
theorem gotClose {r : Reply} (h : Books segs ids s st ((.close, r) :: q)) :
    Books segs ids s st q ∧
      readsLeft segs ids st q + 1 ≤ readsLeft segs ids st ((.close, r) :: q) := by
  have hother (p : PendingRead) (hp : p ≠ .close) :
      repliesTo p ((.close, r) :: q) = repliesTo p q := by
    rw [repliesTo_cons, if_neg hp.symm]
  refine ⟨⟨h.blobs, h.opens, fun j hj => ?_, h.owned,
    fun x hx => h.known x (List.mem_cons_of_mem _ hx), h.head, ?_⟩, ?_⟩
  · rw [← hother (.open j) (by simp), ← hother (.seg j) (by simp)]
    exact h.stage j hj
  · rw [h.total, segsOwed_cons]
    rfl
  · rw [readsLeft, readsLeft, repliesTo_cons, if_pos rfl, List.length_cons, Nat.add_assoc]

/-- A segment response of blob `i` is next. -/
theorem nextSegment {r : Reply} (h : Books segs ids s st ((.seg i, r) :: q)) :
    i < ids.length ∧ i < st.blobs.length ∧ (st.settle i).totalInFlight = segsOwed q ∧
      (st.blob i).settle.inFlight = (repliesTo (.seg i) q).length ∧
      (∀ j, repliesTo (.open j) q = repliesTo (.open j) ((.seg i, r) :: q)) ∧
      ∀ j, j ≠ i → repliesTo (.seg j) q = repliesTo (.seg j) ((.seg i, r) :: q) := by
  have hi : i < ids.length := h.known _ List.mem_cons_self i rfl
  refine ⟨hi, h.blobs.symm ▸ hi, ?_, ?_, fun j => ?_, fun j hj => ?_⟩
  · have htotal := h.total
    rw [segsOwed_cons] at htotal
    exact Nat.sub_eq_of_eq_add htotal
  · have hcount := (h.stage i hi).inFlight
    rw [repliesTo_cons, if_pos rfl] at hcount
    exact Nat.sub_eq_of_eq_add hcount
  · rw [repliesTo_cons, if_neg (by simp)]
  · rw [repliesTo_cons, if_neg (by simpa using hj.symm)]

/-- A response behind the end of its blob brings nothing. -/
theorem gotRest {r : Reply} (h : Books segs ids s st ((.seg i, r) :: q))
    (heof : (st.blob i).eof = true) : ∃ resp, r = .ok resp ∧ Books segs ids s (st.settle i) q ∧
      readsLeft segs ids (st.settle i) q + 1 ≤ readsLeft segs ids st ((.seg i, r) :: q) := by
  obtain ⟨hi, hlt, htotal, hcount, hopens, hsegs⟩ := h.nextSegment
  have hblob := @BlobReads.blob_set i st (st.settle i) _ rfl hlt
  have hstage := h.stage i hi
  cases hstage with
  | unopened _ hnew _ _ _ =>
    rw [hnew] at heof
    cases heof
  | opening _ _ hnew _ _ _ =>
    rw [hnew] at heof
    cases heof
  | reading _ _ _ hread =>
    rw [hread.unfinished] at heof
    cases heof
  | done hnext hnil hend hparts hlength hok hstore =>
    rw [repliesTo_cons, if_pos rfl] at hok hlength
    obtain ⟨resp, rfl⟩ := hok r List.mem_cons_self
    refine ⟨resp, rfl, ?_, ?_⟩
    · refine h.change hi rfl rfl rfl (fun _ _ _ => Iff.rfl) (fun j hj => ⟨hopens j, hsegs j hj⟩) ?_
        (fun x hx => .inl (List.mem_cons_of_mem _ hx)) (h.head.same rfl fun j => ?_) htotal
      · rw [hopens, hnil]
        exact .done hnext rfl hend hparts hcount (fun r hr => hok r (List.mem_cons_of_mem _ hr)) hstore
      · rw [hblob]
        split
        · rename_i hji
          rw [hji]
          rfl
        · rfl
    · refine readsLeft_less (k := 0) hi ?_ (fun j hj => ?_) ?_
      · rw [repliesTo_cons, if_neg (by simp)]
        rfl
      · rw [hblob, if_neg hj]
      · have hnow : (st.blob i).settle.eof = true := heof
        rw [hblob, if_pos rfl, BlobState.readsLeft_done hnow, BlobState.readsLeft_done heof, hcount,
          hlength]
        rfl

/-- A segment of a blob that is not at its end is the one that comes next. -/
theorem gotSegment {r : Reply} (h : Books segs ids s st ((.seg i, r) :: q))
    (heof : (st.blob i).eof = false) : ∃ resp handle, r = .ok resp ∧ i < st.nextToOpen ∧
      repliesTo (.open i) q = [] ∧
      BeingRead segs (ids.getD i []) i s.handles handle (st.blob i) (r :: repliesTo (.seg i) q) ∧
      segmentOf resp = (⟨ids.getD i [], i, (st.blob i).dataSegs⟩ : OpenBlob).answer segs := by
  obtain ⟨hi, -, -, -, hopens, -⟩ := h.nextSegment
  have hstage := h.stage i hi
  rw [← hopens, repliesTo_cons, if_pos rfl] at hstage
  cases hstage with
  | unopened _ _ _ hnil _ => cases hnil
  | opening _ _ _ _ hnil _ => cases hnil
  | reading handle hnext hnil hread =>
    obtain ⟨resp, hr, hanswer⟩ := hread.answers 0 r rfl
    exact ⟨resp, handle, hr, hnext, hnil, hread, hanswer⟩
  | done _ _ hend _ _ _ _ =>
    rw [heof] at hend
    cases hend

/-- It is not the last. -/
theorem received {resp : Response} (h : Books segs ids s st ((.seg i, .ok resp) :: q))
    (heof : (st.blob i).eof = false) (hmore : (segmentOf resp).eof = false) :
    Books segs ids s ((st.settle i).receive i (segmentOf resp)) q ∧
      readsLeft segs ids ((st.settle i).receive i (segmentOf resp)) q + 1 ≤
        readsLeft segs ids st ((.seg i, .ok resp) :: q) := by
  obtain ⟨resp', handle, hr, hnext, hnil, hread, hanswer⟩ := h.gotSegment heof
  obtain rfl := Except.ok.inj hr
  obtain ⟨hi, hlt, htotal, hcount, hopens, hsegs⟩ := h.nextSegment
  have hblobs := BlobReads.receive_blobs hlt (segmentOf resp)
  have hblob := BlobReads.blob_set hblobs hlt
  have hnow := hread.grow hanswer hmore
  refine ⟨?_, ?_⟩
  · refine h.change hi hblobs rfl rfl (fun _ _ _ => Iff.rfl) (fun j hj => ⟨hopens j, hsegs j hj⟩) ?_
      (fun x hx => .inl (List.mem_cons_of_mem _ hx)) (h.head.same rfl fun j => ?_) htotal
    · rw [hnil]
      exact .reading handle hnext rfl hnow
    · rw [hblob]
      split
      · rename_i hji
        rw [hji]
        rfl
      · rfl
  · refine readsLeft_less (k := 0) hi ?_ (fun j hj => ?_) ?_
    · rw [repliesTo_cons, if_neg (by simp)]
      rfl
    · rw [hblob, if_neg hj]
    · have hunread : (st.blob i).dataSegs + 1 < _ := hnow.unread
      rw [hblob, if_pos rfl, BlobState.readsLeft_reading hnow.known hnow.unfinished,
        BlobState.readsLeft_reading hread.known heof]
      change _ - ((st.blob i).dataSegs + 1) + 33 + 1 + 0 ≤ _
      omega

/-- It is the last, and the blob is closed. -/
theorem finished {resp : Response} (h : Books segs ids s st ((.seg i, .ok resp) :: q))
    (heof : (st.blob i).eof = false) (hlast : (segmentOf resp).eof = true) {handle : Nat}
    (hhandle : (st.blob i).handle = some handle) {r : Reply}
    (hs : s.take segs (.closeBlob handle) r = some s') :
    Books segs ids s' ((st.settle i).finish i (segmentOf resp)) (q ++ [(.close, r)]) ∧
      readsLeft segs ids ((st.settle i).finish i (segmentOf resp)) (q ++ [(.close, r)]) + 1 ≤
        readsLeft segs ids st ((.seg i, .ok resp) :: q) := by
  obtain ⟨resp', handle', hr, hnext, hnil, hread, hanswer⟩ := h.gotSegment heof
  obtain rfl := Except.ok.inj hr
  obtain rfl : handle = handle' := by
    have hsame := hread.known
    rw [hhandle] at hsame
    exact Option.some.inj hsame
  obtain ⟨hi, hlt, htotal, hcount, hopens, hsegs⟩ := h.nextSegment
  have hblobs := BlobReads.finish_blobs hlt (segmentOf resp)
  have hblob := BlobReads.blob_set hblobs hlt
  obtain ⟨hlength, hparts⟩ := hread.finish hanswer hlast
  have hheld := hread.store.get rfl
  obtain ⟨-, rfl⟩ := BlobStore.take_closeBlob hheld hs
  have hclose (p : PendingRead) (hp : p ≠ .close) :
      repliesTo p (q ++ [(.close, r)]) = repliesTo p q := by
    rw [repliesTo_snoc, if_neg hp.symm]
  refine ⟨?_, ?_⟩
  · refine h.change hi hblobs rfl rfl ?_ (fun j hj => ?_) ?_ (fun x hx => ?_) ?_ ?_
    · refine update_apart (fun y hy => ?_) fun y hy => ?_
      · rw [hheld] at hy
        rw [← Option.some.inj hy]
      · cases hy
    · rw [hclose _ (by simp), hclose _ (by simp)]
      exact ⟨hopens j, hsegs j hj⟩
    · rw [hclose _ (by simp), hclose _ (by simp), hnil]
      refine .done hnext rfl rfl hparts hcount (fun r hr => ?_) (hread.store.update (v := none) ?_)
      · obtain ⟨j, hj⟩ := List.getElem?_of_mem hr
        obtain ⟨resp', hr', -⟩ := hread.answers (j + 1) r hj
        exact ⟨resp', hr'⟩
      · intro y hy
        cases hy
    · rcases List.mem_append.mp hx with hx | hx
      · exact .inl (List.mem_cons_of_mem _ hx)
      · rw [List.mem_singleton.mp hx]
        exact .inr (.inr rfl)
    · -- the blobs before the head stay read, this one is read now
      have hblobs' := @BlobReads.blob_set _ _
        ((st.settle i).setBlob i (((st.settle i).blob i).finish (segmentOf resp))) _ hblobs hlt
      refine @AtHead.advance _ ((st.settle i).setBlob i (((st.settle i).blob i).finish (segmentOf resp))) _
        ?_ h.head.le (fun j hj => ?_) rfl rfl
      · have hset := congrArg List.length hblobs
        rw [List.length_set] at hset
        exact hset.trans h.blobs
      · rw [hblobs']
        split
        · rfl
        · exact h.head.finished j hj
    · rw [segsOwed_snoc]
      exact htotal
  · refine readsLeft_less (k := 1) hi ?_ (fun j hj => ?_) ?_
    · rw [repliesTo_snoc, if_pos rfl, repliesTo_cons, if_neg (by simp), List.length_append]
      rfl
    · rw [hblob, if_neg hj]
    · have hcap := hread.room.2
      have hwindow := hread.window
      have hdepth : pipelineDepth = 32 := rfl
      rw [hblob, if_pos rfl, BlobState.readsLeft_done rfl,
        BlobState.readsLeft_reading hread.known heof]
      change (st.blob i).inFlight - 1 + 1 + 1 ≤ _
      omega

end Books

end

end FastFirebird
