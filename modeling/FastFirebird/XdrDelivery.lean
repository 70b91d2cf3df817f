import FastFirebird.XdrStream

/-! Reading while chunks arrive: `enqueue` and `read` of `protocol/transport.ts` with one reader, in
every order of arrivals and resumptions. -/
namespace FastFirebird.XdrStream

open XdrBuffer (Memory newWriter newWriter_holds)

/-- `rxWaiter`, and whether its promise is resolved. -/
inductive Waiter where
  | none
  | pending
  | resolved
  deriving Repr, DecidableEq

/-- The receiving side; the last two fields count the bytes that arrived and that were taken. -/
structure Rx (α : Type) where
  reader : Read α
  queue : ByteQueue := {}
  waiter : Waiter := .none
  received : Nat := 0
  taken : Nat := 0

inductive Event where
  | chunk (data : Bytes)
  /-- The reader runs, if it does not await a promise that is pending. -/
  | run
  deriving Repr, DecidableEq

def Event.data : Event → Bytes
  | chunk data => data
  | run => []

namespace Rx

variable {α : Type}

def step (s : Rx α) : Event → Except FirebirdError (Rx α)
  | .chunk data =>
    .ok { s with
      queue := s.queue.push data
      waiter := if s.waiter = .pending then .resolved else s.waiter
      received := s.received + data.length }
  | .run =>
    match s.reader with
    | .done _ => .ok s
    | .more n next =>
      if s.waiter = .pending then .ok s
      -- `while (this.rx.length < n)`
      else if s.queue.length < n then .ok { s with waiter := .pending }
      else
        match s.queue.take n with
        | some (data, queue) =>
          .ok { s with
            reader := next data
            queue := queue
            waiter := .none
            taken := s.taken + n }
        | none => .error ⟨.other, "Cannot read properties of undefined", none⟩

def run (s : Rx α) (events : List Event) : Except FirebirdError (Rx α) := events.foldlM step s

/-- The next step of the reader ends its read of `n` bytes. -/
def Resolves (s : Rx α) (n : Nat) : Prop := ∃ s', s.step .run = .ok s' ∧ s'.taken = s.taken + n

end Rx

def arrived (events : List Event) : Bytes := events.flatMap Event.data

/-! The invariant -/

/-- The reader stands where it would after being fed with all that arrived, but for what is still
queued; it awaits a promise only when that is too little. -/
structure Good {α : Type} (reader : Read α) (bytes : Bytes) (s : Rx α) : Prop where
  valid : s.queue.Valid
  received : s.received = bytes.length
  counts : s.queue.length + s.taken = s.received
  feed : s.reader.feed s.queue.contents = reader.feed bytes
  positive : s.reader.Positive
  pending : s.waiter = .pending → ∃ n next, s.reader = .more n next ∧ s.queue.length < n

section Good

variable {α : Type} {reader : Read α} {bytes : Bytes} {s : Rx α}

theorem start_good (h : reader.Positive) : Good reader [] { reader := reader } :=
  ⟨ByteQueue.empty_valid, rfl, rfl, rfl, h, nofun⟩

theorem Good.chunk (h : Good reader bytes s) (data : Bytes) :
    ∃ s', s.step (.chunk data) = .ok s' ∧ Good reader (bytes ++ data) s' := by
  have hvalid := ByteQueue.push_valid h.valid data
  have hcontents := ByteQueue.push_contents h.valid data
  have hlength : (s.queue.push data).length = s.queue.length + data.length := by
    rw [hvalid.length, hcontents, List.length_append, ← h.valid.length]
  refine ⟨_, rfl, hvalid, ?_, ?_, ?_, h.positive, ?_⟩
  · dsimp only
    rw [h.received, List.length_append]
  · have hcounts := h.counts
    dsimp only
    omega
  · dsimp only
    rw [hcontents, Read.feed_append, h.feed, ← Read.feed_append]
  · -- an arrival leaves no promise pending
    intro hpending
    dsimp only at hpending
    split at hpending
    · cases hpending
    · rename_i hnone
      exact absurd hpending hnone

/-- A step of the reader: what it waits for is not there, or it is taken. -/
theorem Good.run_more (h : Good reader bytes s) {n : Nat} {next : Bytes → Read α}
    (hreader : s.reader = .more n next) :
    (s.queue.length < n ∧ ∃ s', s.step .run = .ok s' ∧ s'.taken = s.taken ∧
      Good reader bytes s') ∨
    (n ≤ s.queue.length ∧ ∃ s', s.step .run = .ok s' ∧ s'.taken = s.taken + n ∧
      s'.reader = next (s.queue.contents.take n) ∧
      s'.queue.contents = s.queue.contents.drop n ∧ Good reader bytes s') := by
  have hpositive := h.positive
  rw [hreader] at hpositive
  obtain ⟨hn, hnext⟩ : 0 < n ∧ ∀ data, (next data).Positive := by
    cases hpositive with
    | more hn hnext => exact ⟨hn, hnext⟩
  by_cases hshort : s.queue.length < n
  · left
    refine ⟨hshort, ?_⟩
    unfold Rx.step
    rw [hreader]
    dsimp only
    by_cases hpending : s.waiter = .pending
    · rw [if_pos hpending]
      exact ⟨s, rfl, rfl, h⟩
    · rw [if_neg hpending, if_pos hshort]
      have hfeed := h.feed
      rw [hreader] at hfeed
      exact ⟨_, rfl, rfl, h.valid, h.received, h.counts, hfeed, hpositive,
        fun _ => ⟨n, next, rfl, hshort⟩⟩
  · right
    have henough : n ≤ s.queue.length := by omega
    obtain ⟨queue, htake, hvalid, hcontents⟩ := ByteQueue.take_spec h.valid hn henough
    have hfree : ¬ s.waiter = .pending := by
      intro hpending
      obtain ⟨m, next', hmore, hless⟩ := h.pending hpending
      rw [hreader] at hmore
      injection hmore with hm
      omega
    refine ⟨henough, ⟨next (s.queue.contents.take n), queue, .none, s.received, s.taken + n⟩, ?_,
      rfl, rfl, hcontents, hvalid, h.received, ?_, ?_, hnext _, nofun⟩
    · unfold Rx.step
      rw [hreader]
      dsimp only
      rw [if_neg hfree, if_neg hshort, htake]
    · have hlength : queue.length = s.queue.length - n := by
        rw [hvalid.length, hcontents, List.length_drop, ← h.valid.length]
      have hcounts := h.counts
      dsimp only
      omega
    · have hfeed := h.feed
      have hthere : ¬ s.queue.contents.length < n := by
        rw [← h.valid.length]
        exact hshort
      rw [hreader, Read.feed, if_neg hthere] at hfeed
      dsimp only
      rw [hcontents]
      exact hfeed

theorem Good.step (h : Good reader bytes s) (e : Event) :
    ∃ s', s.step e = .ok s' ∧ Good reader (bytes ++ e.data) s' := by
  cases e with
  | chunk data => exact h.chunk data
  | run =>
    show ∃ s', s.step .run = .ok s' ∧ Good reader (bytes ++ []) s'
    rw [List.append_nil]
    cases hreader : s.reader with
    | done a =>
      refine ⟨s, ?_, h⟩
      unfold Rx.step
      rw [hreader]
    | more n next =>
      rcases h.run_more hreader with ⟨-, s', hstep, -, hgood⟩ | ⟨-, s', hstep, -, -, -, hgood⟩
      · exact ⟨s', hstep, hgood⟩
      · exact ⟨s', hstep, hgood⟩

theorem Good.run (events : List Event) : ∀ {bytes : Bytes} {s : Rx α}, Good reader bytes s →
    ∃ s', s.run events = .ok s' ∧ Good reader (bytes ++ arrived events) s' := by
  induction events with
  | nil =>
    intro bytes s h
    refine ⟨s, rfl, ?_⟩
    rw [arrived, List.flatMap_nil, List.append_nil]
    exact h
  | cons e events ih =>
    intro bytes s h
    obtain ⟨mid, hstep, hmid⟩ := h.step e
    obtain ⟨s', hrun, hgood⟩ := ih hmid
    refine ⟨s', ?_, ?_⟩
    · unfold Rx.run
      rw [List.foldlM_cons, hstep]
      exact hrun
    · rw [arrived, List.flatMap_cons, ← List.append_assoc]
      exact hgood

/-- A read is resolved when its bytes have arrived, neither earlier nor later. -/
theorem Good.resolves_iff (h : Good reader bytes s) {n : Nat} {next : Bytes → Read α}
    (hreader : s.reader = .more n next) : s.Resolves n ↔ s.taken + n ≤ bytes.length := by
  have hcounts := h.counts
  have hreceived := h.received
  have hpositive := h.positive
  rw [hreader] at hpositive
  have hn : 0 < n := by
    cases hpositive with
    | more hn hnext => exact hn
  rcases h.run_more hreader with ⟨hshort, s', hstep, htaken, -⟩ | ⟨henough, s', hstep, htaken, -⟩
  · constructor
    · rintro ⟨other, hother, hmore⟩
      rw [hstep] at hother
      injection hother with hsame
      rw [← hsame] at hmore
      omega
    · intro harrived
      omega
  · constructor
    · intro _
      omega
    · intro _
      exact ⟨s', hstep, htaken⟩

/-- The reader gets as far as it would with all the bytes at once. -/
theorem Good.finishes : ∀ {r : Read α} {s : Rx α}, Good reader bytes s → s.reader = r →
    ∃ count s', s.run (List.replicate count .run) = .ok s' ∧
      s'.reader = (reader.feed bytes).1 ∧ s'.queue.contents = (reader.feed bytes).2 := by
  intro r
  induction r with
  | done a =>
    intro s h hreader
    have hfeed := h.feed
    rw [hreader, Read.feed] at hfeed
    refine ⟨0, s, rfl, ?_, ?_⟩
    · rw [hreader, ← hfeed]
    · rw [← hfeed]
  | more n next ih =>
    intro s h hreader
    rcases h.run_more hreader with ⟨hshort, -⟩ | ⟨-, mid, hstep, -, hnext, -, hmid⟩
    · have hfeed := h.feed
      have hfew : s.queue.contents.length < n := by
        rw [← h.valid.length]
        exact hshort
      rw [hreader, Read.feed, if_pos hfew] at hfeed
      refine ⟨0, s, rfl, ?_, ?_⟩
      · rw [hreader, ← hfeed]
      · rw [← hfeed]
    · obtain ⟨count, s', hrun, hdone⟩ := ih _ hmid hnext
      refine ⟨count + 1, s', ?_, hdone⟩
      unfold Rx.run
      rw [List.replicate_succ, List.foldlM_cons, hstep]
      exact hrun

end Good

/-- Items written in any packets with one writer, cut into any chunks: in every state of the reading
side the queue holds what arrived and was not taken, the read that is awaited resolves just when its
bytes have arrived, and the items that were read are those that were written, but for surrogates
that stood alone. -/
theorem xdr_round_trip (memory : Memory) {initialSize : Nat} (hsize : 0 < initialSize)
    {batches : List (List Item)} (hsmall : ∀ item ∈ batches.flatten, item.Small) :
    ∃ packets w, writePackets memory batches (newWriter memory initialSize) = .ok (packets, w) ∧
      (∀ events rest, arrived events ++ rest = packets.flatten →
        ∃ s, Rx.run { reader := readItems (batches.flatten.map Item.kind) } events = .ok s ∧
          s.queue.length + s.taken = (arrived events).length ∧
          (∀ n next, s.reader = .more n next →
            (s.Resolves n ↔ s.taken + n ≤ (arrived events).length)) ∧
          (∀ items, s.reader.result = some items → items = batches.flatten.map Item.received) ∧
          (rest = [] → ∃ count s', s.run (List.replicate count .run) = .ok s' ∧
            s'.reader.result = some (batches.flatten.map Item.received) ∧ s'.queue.length = 0)) ∧
      ∀ item ∈ batches.flatten, item.WellFormed → item.received = item := by
  obtain ⟨w, hwritten⟩ := writePackets_octets memory batches (newWriter_holds memory hsize)
  refine ⟨_, w, hwritten, ?_, fun item _ hitem => hitem.received_eq⟩
  have hpackets : (batches.map fun items => items.flatMap Item.octets).flatten =
      batches.flatten.flatMap Item.octets := by
    rw [← List.flatMap_def, List.flatten_eq_flatMap, List.flatMap_assoc]
    rfl
  have hfeed := readItems_feed hsmall []
  rw [List.append_nil, ← hpackets] at hfeed
  intro events rest hsplit
  obtain ⟨s, hrun, hgood⟩ := Good.run events
    (start_good (readItems_positive (batches.flatten.map Item.kind)))
  rw [List.nil_append] at hgood
  refine ⟨s, hrun, ?_, fun n next hreader => hgood.resolves_iff hreader, ?_, ?_⟩
  · rw [hgood.counts, hgood.received]
  · intro items hitems
    cases hreader : s.reader with
    | more n next =>
      rw [hreader] at hitems
      cases hitems
    | done a =>
      rw [hreader] at hitems
      obtain rfl : a = items := Option.some.inj hitems
      have hdone := hgood.feed
      rw [hreader, Read.feed] at hdone
      -- the rest of the bytes changes nothing
      rw [← hsplit, Read.feed_append, ← hdone] at hfeed
      injection hfeed with hsame
      injection hsame
  · rintro rfl
    rw [List.append_nil] at hsplit
    obtain ⟨count, s', hrun', hreader, hcontents⟩ := hgood.finishes rfl
    rw [hsplit, hfeed] at hreader hcontents
    refine ⟨count, s', hrun', ?_, ?_⟩
    · rw [hreader]
      rfl
    · obtain ⟨other, hother, hlast⟩ := Good.run (List.replicate count .run) hgood
      rw [hrun'] at hother
      injection hother with hsame
      rw [← hsame] at hlast
      rw [hlast.valid.length, hcontents]
      rfl

theorem xdr_round_trip_one : ∃ packets w s count s',
    writePackets (fun _ _ => 0) [[.int32 (-1), .counted [7]], [.string [0x41]]]
      (newWriter (fun _ _ => 0) 1) = .ok (packets, w) ∧
    Rx.run { reader := readItems [.int32, .counted, .string] } [.chunk packets.flatten] = .ok s ∧
    s.run (List.replicate count .run) = .ok s' ∧
    s'.reader.result = some [.int32 (-1), .counted [7], .string [0x41]] := by
  obtain ⟨packets, w, hwritten, hread, hsame⟩ := @xdr_round_trip (fun _ _ => 0) 1 (by decide)
    [[.int32 (-1), .counted [7]], [.string [0x41]]] (by
      simp only [List.flatten_cons, List.flatten_nil, List.append_nil, List.cons_append,
        List.nil_append, List.forall_mem_cons]
      exact ⟨trivial, (by decide : 1 < 2 ^ 31 - 4), (by decide : 1 < 2 ^ 31 - 4), nofun⟩)
  obtain ⟨s, hrun, -, -, -, hdone⟩ := hread [.chunk packets.flatten] [] (by
    simp [arrived, Event.data])
  obtain ⟨count, s', hrun', hresult, -⟩ := hdone rfl
  exact ⟨packets, w, s, count, s', hwritten, hrun, hrun', hresult⟩

/-- A surrogate that stands alone is another item when it is read. -/
theorem lone_surrogate_replaced : ∃ packets w s,
    writePackets (fun _ _ => 0) [[.string [0xD800]]] (newWriter (fun _ _ => 0) 1) =
      .ok (packets, w) ∧
    Rx.run { reader := readItems [.string] } [.chunk packets.flatten, .run, .run] = .ok s ∧
    s.reader.result = some [.string [0xFFFD]] ∧ Item.string [0xFFFD] ≠ .string [0xD800] := by
  refine ⟨_, _, _, rfl, rfl, ?_, by decide⟩
  decide +kernel

end FastFirebird.XdrStream
