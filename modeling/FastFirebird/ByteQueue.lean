import FastFirebird.Packet

/-! `protocol/transport.ts`: the chunks that were received, taken from across their boundaries. -/
namespace FastFirebird

structure ByteQueue where
  chunks : List Bytes := []
  /-- Offset into the first chunk. -/
  head : Nat := 0
  length : Nat := 0
  deriving Repr, DecidableEq

namespace ByteQueue

def push (chunk : Bytes) (q : ByteQueue) : ByteQueue :=
  if chunk.length = 0 then q
  else { q with chunks := q.chunks ++ [chunk], length := q.length + chunk.length }

/-- `while (copied < n)`, with the `n` bytes that are left to copy: these, the chunks and the head.
There is no first chunk to look at when they run out. -/
def copyOut : List Bytes → Nat → Nat → Option (Bytes × List Bytes × Nat)
  | chunks, head, 0 => some ([], chunks, head)
  | [], _, _ + 1 => none
  | c :: chunks, head, n + 1 =>
    let want := min (c.length - head) (n + 1)
    let out := (c.drop head).take want
    if head + want = c.length then
      (copyOut chunks 0 (n + 1 - want)).map fun (more, left) => (out ++ more, left)
    -- the chunk has more than was wanted: the loop ends
    else some (out, c :: chunks, head + want)

/-- Exactly `n` bytes. -/
def take (n : Nat) (q : ByteQueue) : Option (Bytes × ByteQueue) :=
  match q.chunks with
  | [] => none
  | first :: chunks =>
    if n ≤ first.length - q.head then
      let out := (first.drop q.head).take n
      if q.head + n = first.length then some (out, ⟨chunks, 0, q.length - n⟩)
      else some (out, ⟨first :: chunks, q.head + n, q.length - n⟩)
    else
      (copyOut (first :: chunks) q.head n).map fun (out, left, head) =>
        (out, ⟨left, head, q.length - n⟩)

/-- What is left of the chunks. -/
def contents (q : ByteQueue) : Bytes := q.chunks.flatten.drop q.head

/-- The head is within the first chunk, and no chunk is empty. -/
structure Placed (chunks : List Bytes) (head : Nat) : Prop where
  within : ∀ first ∈ chunks.head?, head < first.length
  start : chunks = [] → head = 0
  nonempty : ∀ c ∈ chunks, c ≠ []

structure Valid (q : ByteQueue) : Prop where
  placed : Placed q.chunks q.head
  length : q.length = q.contents.length

theorem Placed.tail {c : Bytes} {chunks : List Bytes} {head : Nat} (h : Placed (c :: chunks) head) :
    Placed chunks 0 := by
  have hrest : ∀ d ∈ chunks, d ≠ [] := fun d hd => h.nonempty d (List.mem_cons_of_mem c hd)
  refine ⟨?_, fun _ => rfl, hrest⟩
  intro first hfirst
  exact List.length_pos_iff.mpr (hrest first (List.mem_of_head? hfirst))

theorem Placed.advance {c : Bytes} {chunks : List Bytes} {head head' : Nat}
    (h : Placed (c :: chunks) head) (hlt : head' < c.length) : Placed (c :: chunks) head' := by
  refine ⟨?_, fun hnil => (nomatch hnil), h.nonempty⟩
  intro first hfirst
  rw [← Option.some.inj hfirst]
  exact hlt

theorem empty_valid : Valid {} := ⟨⟨nofun, fun _ => rfl, nofun⟩, rfl⟩

/-! Pushing -/

theorem push_contents {q : ByteQueue} (h : q.Valid) (chunk : Bytes) :
    (q.push chunk).contents = q.contents ++ chunk := by
  unfold push
  split
  · rename_i hzero
    rw [List.eq_nil_of_length_eq_zero hzero, List.append_nil]
  · have hwithin : q.head ≤ q.chunks.flatten.length := by
      cases hchunks : q.chunks with
      | nil =>
        rw [h.placed.start hchunks]
        exact Nat.zero_le _
      | cons first chunks =>
        have hfirst := h.placed.within first (by rw [hchunks]; rfl)
        rw [List.flatten_cons, List.length_append]
        omega
    unfold contents
    dsimp only
    rw [List.flatten_append, List.flatten_singleton, List.drop_append_of_le_length hwithin]

theorem push_valid {q : ByteQueue} (h : q.Valid) (chunk : Bytes) : (q.push chunk).Valid := by
  have hcontents := push_contents h chunk
  refine ⟨?_, ?_⟩
  · unfold push
    split
    · exact h.placed
    · rename_i hlen
      have hchunk : chunk ≠ [] := fun hnil => hlen (congrArg List.length hnil)
      obtain ⟨hwithin, hstart, hnonempty⟩ := h.placed
      refine ⟨?_, fun hnil => absurd (List.append_eq_nil_iff.mp hnil).2 (List.cons_ne_nil _ _), ?_⟩
      · intro first hfirst
        cases hchunks : q.chunks with
        | nil =>
          rw [hchunks] at hfirst
          rw [← Option.some.inj hfirst, hstart hchunks]
          exact List.length_pos_iff.mpr hchunk
        | cons c chunks =>
          rw [hchunks] at hfirst hwithin
          exact hwithin first hfirst
      · intro c hc
        rcases List.mem_append.mp hc with hc | hc
        · exact hnonempty c hc
        · rw [List.mem_singleton.mp hc]
          exact hchunk
  · rw [hcontents, List.length_append, ← h.length]
    unfold push
    split
    · rename_i hzero
      omega
    · rfl

/-! Taking -/

theorem copyOut_spec : ∀ {chunks : List Bytes} {head n : Nat}, Placed chunks head →
    n ≤ (chunks.flatten.drop head).length → ∃ left head',
      copyOut chunks head n = some ((chunks.flatten.drop head).take n, left, head') ∧
      Placed left head' ∧ left.flatten.drop head' = (chunks.flatten.drop head).drop n
  | chunks, head, 0, h, _ => ⟨chunks, head, by cases chunks <;> rfl, h, rfl⟩
  | [], head, n + 1, _, hn => by
    rw [List.flatten_nil, List.drop_nil] at hn
    cases hn
  | c :: chunks, head, n + 1, h, hn => by
    have hhead : head < c.length := h.within c rfl
    have hcontents : (c :: chunks).flatten.drop head = c.drop head ++ chunks.flatten := by
      rw [List.flatten_cons, List.drop_append_of_le_length (Nat.le_of_lt hhead)]
    rw [hcontents] at hn ⊢
    unfold copyOut
    dsimp only
    split
    · rename_i hend
      -- the whole of the chunk, and the rest from the others
      have hwant : min (c.length - head) (n + 1) = (c.drop head).length := by
        rw [List.length_drop]
        omega
      have hall : (c.drop head).length ≤ n + 1 := by
        rw [← hwant]
        exact Nat.min_le_right _ _
      have hrest : n + 1 - (c.drop head).length ≤ (chunks.flatten.drop 0).length := by
        rw [List.length_append] at hn
        rw [List.drop_zero]
        omega
      obtain ⟨left, head', hcopy, hplaced, hleft⟩ := copyOut_spec h.tail hrest
      rw [List.drop_zero] at hcopy hleft
      refine ⟨left, head', ?_, hplaced, ?_⟩
      · rw [hwant, hcopy, List.take_length, List.take_append, List.take_of_length_le hall]
        rfl
      · rw [hleft, List.drop_append, List.drop_of_length_le hall, List.nil_append]
    · rename_i hend
      have hwant : min (c.length - head) (n + 1) = n + 1 := by omega
      have hshort : n + 1 ≤ (c.drop head).length := by
        rw [List.length_drop]
        omega
      refine ⟨c :: chunks, head + min (c.length - head) (n + 1), ?_, h.advance (by omega), ?_⟩
      · rw [hwant, List.take_append_of_le_length hshort]
      · rw [hwant, List.flatten_cons, List.drop_append_of_le_length (by omega),
          List.drop_append_of_le_length hshort, List.drop_drop]

/-- Bytes that are there are taken in order, in both ways. -/
theorem take_spec {q : ByteQueue} (h : q.Valid) {n : Nat} (hpos : 0 < n) (hn : n ≤ q.length) :
    ∃ q', q.take n = some (q.contents.take n, q') ∧ q'.Valid ∧ q'.contents = q.contents.drop n := by
  obtain ⟨chunks, head, length⟩ := q
  obtain ⟨hplaced, hlength⟩ := h
  dsimp only at hplaced hlength hn
  have hcount : ((chunks.flatten.drop head).drop n).length = length - n := by
    rw [List.length_drop, hlength]
    rfl
  have hbound : n ≤ (chunks.flatten.drop head).length := by
    rw [hlength] at hn
    exact hn
  unfold take contents
  dsimp only
  cases chunks with
  | nil =>
    rw [List.flatten_nil, List.drop_nil] at hbound
    exact absurd hbound (by simp; omega)
  | cons first chunks =>
    dsimp only
    have hhead : head < first.length := hplaced.within first rfl
    have hcontents : (first :: chunks).flatten.drop head = first.drop head ++ chunks.flatten := by
      rw [List.flatten_cons, List.drop_append_of_le_length (Nat.le_of_lt hhead)]
    by_cases hfast : n ≤ first.length - head
    · have hshort : n ≤ (first.drop head).length := by
        rw [List.length_drop]
        exact hfast
      have htake : ((first :: chunks).flatten.drop head).take n = (first.drop head).take n := by
        rw [hcontents, List.take_append_of_le_length hshort]
      rw [if_pos hfast, htake]
      by_cases hend : head + n = first.length
      · have hleft : chunks.flatten.drop 0 = ((first :: chunks).flatten.drop head).drop n := by
          rw [List.drop_zero, hcontents, List.drop_append_of_le_length hshort, List.drop_drop, hend,
            List.drop_length, List.nil_append]
        rw [if_pos hend]
        refine ⟨_, rfl, ⟨hplaced.tail, ?_⟩, hleft⟩
        show length - n = (chunks.flatten.drop 0).length
        rw [hleft, hcount]
      · have hleft : (first :: chunks).flatten.drop (head + n) =
            ((first :: chunks).flatten.drop head).drop n := by
          rw [List.drop_drop]
        have hinside : head + n < first.length := by omega
        rw [if_neg hend]
        refine ⟨_, rfl, ⟨hplaced.advance hinside, ?_⟩, hleft⟩
        show length - n = ((first :: chunks).flatten.drop (head + n)).length
        rw [hleft, hcount]
    · obtain ⟨left, head', hcopy, hplaced', hleft⟩ := copyOut_spec hplaced hbound
      rw [if_neg hfast, hcopy]
      refine ⟨⟨left, head', length - n⟩, rfl, ⟨hplaced', ?_⟩, hleft⟩
      show length - n = (left.flatten.drop head').length
      rw [hleft, hcount]

end ByteQueue

end FastFirebird
