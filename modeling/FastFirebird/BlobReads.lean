import FastFirebird.LazyBlobs

/-! What a lazy handle keeps is the first bytes of its blob, and what its calls return comes from
there. -/
namespace FastFirebird.LazyBlob

variable {content : Bytes} {chunkSize : Nat}

/-! Replies of the server -/

theorem serve_data {pos pos' : Nat} {bytes : Bytes} {eof : Bool} {replies : List SegmentReply}
    (h : serve content pos (.data bytes eof :: replies) = some pos') :
    content.take pos ++ bytes = content.take (pos + bytes.length) ∧
      (eof = true → content.length ≤ pos + bytes.length) ∧
      serve content (pos + bytes.length) replies = some pos' := by
  rw [serve] at h
  split at h
  · rename_i hsent
    refine ⟨?_, fun he => Nat.le_of_eq (hsent.2 he).symm, h⟩
    rw [List.take_add, ← hsent.1]
  · cases h

/-- A window that brings the end, and what the server answers behind it. -/
def lastWindow (bytes : Bytes) : List SegmentReply :=
  .data bytes true :: List.replicate 31 (.data [] true)

theorem serve_le {replies : List SegmentReply} {pos pos' : Nat} (hpos : pos ≤ content.length)
    (h : serve content pos replies = some pos') : pos' ≤ content.length := by
  induction replies generalizing pos with
  | nil =>
    obtain rfl := Option.some.inj h
    exact hpos
  | cons reply replies ih =>
    cases reply with
    | refused err => exact ih hpos h
    | data bytes eof =>
      obtain ⟨htake, -, h⟩ := serve_data h
      have hlengths := congrArg List.length htake
      rw [List.length_append, List.length_take, List.length_take] at hlengths
      exact ih (by omega) h

/-- A window that succeeds brings the next bytes. -/
theorem readBlobWindow_kept {replies : List SegmentReply} {pos pos' : Nat} {base : Bytes}
    {chunks chunks' : List Bytes} {eof eof' : Bool}
    (h : serve content pos replies = some pos')
    (hw : readBlobWindow replies chunks eof = .ok (chunks', eof'))
    (hkept : base ++ chunks.flatten = content.take pos)
    (heof : eof = true → content.length ≤ pos) :
    base ++ chunks'.flatten = content.take pos' ∧ (eof' = true → content.length ≤ pos') := by
  induction replies generalizing pos chunks eof with
  | nil =>
    obtain rfl := Option.some.inj h
    obtain ⟨rfl, rfl⟩ := Prod.mk.inj (Except.ok.inj hw)
    exact ⟨hkept, heof⟩
  | cons reply replies ih =>
    cases reply with
    | refused err => cases hw
    | data bytes eof₁ =>
      obtain ⟨htake, hend, h⟩ := serve_data h
      rw [readBlobWindow] at hw
      by_cases hdone : eof = true
      · rw [if_pos hdone] at hw
        have hpos := heof hdone
        apply ih h hw
        · rw [hkept, List.take_of_length_le hpos, List.take_of_length_le (by omega)]
        · exact fun _ => by omega
      · rw [if_neg hdone] at hw
        apply ih h hw _ hend
        split
        · rw [List.flatten_append, ← List.append_assoc, hkept, List.flatten_singleton]
          exact htake
        · rename_i hempty
          have hnil : bytes = [] := List.eq_nil_of_length_eq_zero (by omega)
          rw [hkept, hnil]
          rfl

/-- What `readBlob` returns is the whole blob. -/
theorem readBlobLoop_content {replies : List SegmentReply} {pos pos' inFlight : Nat} {eof : Bool}
    {parts bytes : Bytes} (h : serve content pos replies = some pos')
    (hr : readBlobLoop replies inFlight eof parts = some (.ok bytes))
    (hparts : parts = content.take pos) (heof : eof = true → content.length ≤ pos)
    (hlive : eof = false → 0 < inFlight) : bytes = content := by
  induction replies generalizing pos inFlight eof parts with
  | nil =>
    cases inFlight with
    | zero =>
      obtain rfl := Except.ok.inj (Option.some.inj hr)
      cases eof with
      | true => rw [hparts, List.take_of_length_le (heof rfl)]
      | false => exact absurd (hlive rfl) (Nat.lt_irrefl 0)
    | succ inFlight => cases hr
  | cons reply replies ih =>
    cases inFlight with
    | zero => cases hr
    | succ inFlight =>
      cases reply with
      | refused err =>
        rw [readBlobLoop] at hr
        split at hr <;> cases hr
      | data bytes' eof₁ =>
        obtain ⟨htake, hend, h⟩ := serve_data h
        rw [readBlobLoop] at hr
        by_cases hdone : eof = true
        · rw [if_pos hdone] at hr
          have hpos := heof hdone
          apply ih h hr
          · rw [hparts, List.take_of_length_le hpos, List.take_of_length_le (by omega)]
          · exact fun _ => by omega
          · exact fun hno => absurd (hdone.symm.trans hno) (by decide)
        · rw [if_neg hdone] at hr
          have hmore : parts ++ bytes' = content.take (pos + bytes'.length) := by
            rw [hparts]
            exact htake
          by_cases hlast : eof₁ = true
          · rw [if_pos hlast] at hr
            exact ih h hr hmore (fun _ => hend hlast) (fun hno => nomatch hno)
          · rw [if_neg hlast] at hr
            exact ih h hr hmore (fun hno => nomatch hno) (fun _ => Nat.succ_pos _)

theorem serveAt_some {cursors cursors' : List Nat} {handle : Nat} {replies : List SegmentReply}
    (h : serveAt content cursors (some handle) replies = some cursors') :
    ∃ pos pos', cursors[handle]? = some pos ∧ serve content pos replies = some pos' ∧
      cursors' = cursors.set handle pos' ∧ cursors'[handle]? = some pos' := by
  obtain ⟨pos, hpos, h⟩ := Option.bind_eq_some_iff.mp h
  obtain ⟨pos', hserve, rfl⟩ := Option.map_eq_some_iff.mp h
  have hlt := (List.getElem?_eq_some_iff.mp hpos).1
  exact ⟨pos, pos', hpos, hserve, rfl, List.getElem?_set_self hlt⟩

/-- A buffer that has the bytes it is said to have is only put together. -/
theorem bufferConcat_flatten (list : List Bytes) :
    bufferConcat list list.flatten.length = list.flatten := by
  unfold bufferConcat
  split
  · rename_i hempty
    rw [List.isEmpty_iff.mp hempty, List.flatten_nil]
  · rw [List.take_length, Nat.sub_self, List.replicate_zero, List.append_nil]

theorem bufferConcat_zero (list : List Bytes) : bufferConcat list 0 = [] := by
  unfold bufferConcat
  split
  · rfl
  · rw [List.take_zero, Nat.zero_sub, List.replicate_zero, List.append_nil]

theorem bufferConcat_take {list : List Bytes} {n : Nat} (h : list.flatten = content.take n)
    (hn : n ≤ content.length) : bufferConcat list n = content.take n := by
  have hlength : n = list.flatten.length := by
    rw [h, List.length_take]
    omega
  calc bufferConcat list n = bufferConcat list list.flatten.length := by rw [← hlength]
    _ = list.flatten := bufferConcat_flatten list
    _ = content.take n := h

/-! The handle -/

/-- `consumed` is lost when it has become the cache, and then the cursor is spent. -/
structure Blob.Sound (content : Bytes) (b : Blob) : Prop where
  cached : ∀ bytes, b.cached = some bytes → bytes = content
  kept : b.atEof = false → b.consumed.flatten = content.take b.consumedBytes
  bound : b.consumedBytes ≤ content.length
  spent : b.atEof = true → b.cursorHandle = none ∧ b.consumedBytes = content.length ∧
    (b.cached = none → b.consumed.flatten = content)
  fresh : b.cursorHandle = none → b.atEof = false → b.consumedBytes = 0

namespace Blob

variable {b : Blob}

theorem sound_new : ({} : Blob).Sound content :=
  ⟨(fun _ h => nomatch h), fun _ => rfl, Nat.zero_le _, (fun h => nomatch h), fun _ _ => rfl⟩

/-- A handle that knows the whole blob. -/
theorem Sound.cache (h : b.Sound content) : { b with cached := some content }.Sound content :=
  ⟨fun _ hbytes => (Option.some.inj hbytes).symm, h.kept, h.bound,
    fun heof => ⟨(h.spent heof).1, (h.spent heof).2.1, (fun hno => nomatch hno)⟩, h.fresh⟩

theorem Sound.concat (h : b.Sound content) (hcached : b.cached = none) :
    bufferConcat b.consumed b.consumedBytes = content.take b.consumedBytes := by
  cases heof : b.atEof with
  | false => exact bufferConcat_take (h.kept heof) h.bound
  | true =>
    obtain ⟨-, hbytes, hflatten⟩ := h.spent heof
    apply bufferConcat_take _ h.bound
    rw [hflatten hcached, hbytes, List.take_length]

theorem promoteIfComplete_fields : b.promoteIfComplete.atEof = b.atEof ∧
    b.promoteIfComplete.consumedBytes = b.consumedBytes ∧
    b.promoteIfComplete.cursorHandle = b.cursorHandle := by
  unfold promoteIfComplete
  split <;> exact ⟨rfl, rfl, rfl⟩

theorem Sound.promote (h : b.Sound content) : b.promoteIfComplete.Sound content := by
  unfold promoteIfComplete
  split
  · rename_i hcomplete
    obtain ⟨heof, hcached⟩ := hcomplete
    obtain ⟨hcursor, hbytes, hflatten⟩ := h.spent heof
    have hwhole : bufferConcat b.consumed b.consumedBytes = content := by
      rw [h.concat hcached, hbytes, List.take_length]
    refine ⟨?_, ?_, h.bound, ?_, ?_⟩
    · exact fun bytes hb => (Option.some.inj hb).symm.trans hwhole
    · exact fun hno => absurd (heof.symm.trans hno) (by decide)
    · exact fun _ => ⟨hcursor, hbytes, (fun hno => nomatch hno)⟩
    · exact fun _ hno => absurd (heof.symm.trans hno) (by decide)
  · exact h

theorem promoteIfComplete_cached (heof : b.atEof = true) : b.promoteIfComplete.cached ≠ none := by
  unfold promoteIfComplete
  split
  · exact fun hno => nomatch hno
  · rename_i hcomplete
    exact fun hno => hcomplete ⟨heof, hno⟩

/-- `head` has its bytes when the blob is read to its end, or as far as it wants. -/
theorem Sound.head_kept (h : b.Sound content) {n : Int}
    (hread : b.atEof = true ∨ n ≤ b.consumedBytes) :
    b.promoteIfComplete.kept n = content.take n.toNat := by
  have hs := h.promote
  unfold Blob.kept
  cases hcached : b.promoteIfComplete.cached with
  | some bytes => rw [hs.cached bytes hcached, Option.getD_some]
  | none =>
    have hopen : b.atEof ≠ true := fun heof => promoteIfComplete_cached heof hcached
    have hn : n.toNat ≤ b.consumedBytes := by
      rcases hread with heof | hn
      · exact absurd heof hopen
      · omega
    rw [Option.getD_none, hs.concat hcached, promoteIfComplete_fields.2.1, List.take_take,
      Nat.min_eq_left hn]

/-- A window behind what the handle has. -/
theorem Sound.push (h : b.Sound content) (hopen : b.atEof = false) {handle pos' : Nat}
    {chunks : List Bytes} {eof : Bool} (hcursor : b.cursorHandle = some handle)
    (hpos : pos' ≤ content.length) (hchunks : b.consumed.flatten ++ chunks.flatten = content.take pos')
    (heof : eof = true → content.length ≤ pos') :
    (b.push chunks eof).Sound content ∧ (b.push chunks eof).consumedBytes = pos' ∧
      (b.push chunks eof).consumed.flatten = content.take pos' ∧ (b.push chunks eof).atEof = eof ∧
      (eof = false → (b.push chunks eof).cursorHandle = some handle) := by
  have hbytes : b.consumedBytes + chunks.flatten.length = pos' := by
    have hlengths := congrArg List.length hchunks
    rw [h.kept hopen, List.length_append, List.length_take, List.length_take] at hlengths
    have hbound := h.bound
    omega
  have hflatten : (b.consumed ++ chunks).flatten = content.take pos' := by
    rw [List.flatten_append]
    exact hchunks
  unfold Blob.push finishCursor
  cases eof with
  | true =>
    have hend : pos' = content.length := by
      have hle := heof rfl
      omega
    refine ⟨⟨h.cached, (fun hno => nomatch hno), ?_, ?_, (fun _ hno => nomatch hno)⟩, hbytes,
      hflatten, rfl, (fun hno => nomatch hno)⟩
    · exact Nat.le_trans (Nat.le_of_eq hbytes) hpos
    · refine fun _ => ⟨rfl, hbytes.trans hend, fun _ => hflatten.trans ?_⟩
      rw [hend, List.take_length]
  | false =>
    refine ⟨⟨h.cached, ?_, Nat.le_trans (Nat.le_of_eq hbytes) hpos, ?_, ?_⟩, hbytes, hflatten, hopen,
      fun _ => hcursor⟩
    · intro _
      show (b.consumed ++ chunks).flatten = content.take (b.consumedBytes + chunks.flatten.length)
      rw [hbytes]
      exact hflatten
    · exact fun hno => absurd (hopen.symm.trans hno) (by decide)
    · exact fun hno _ => absurd (hcursor.symm.trans hno) (by simp)

theorem Sound.reset (h : b.Sound content) : b.reset.Sound content :=
  ⟨h.cached, fun _ => rfl, Nat.zero_le _, (fun hno => nomatch hno), fun _ _ => rfl⟩

end Blob

/-! The calls -/

/-- What a call is to return. -/
def Call.expected (content : Bytes) : Call → Bytes
  | .head n => content.take n.toNat
  | .buffer | .text | .stream => content
  | .close | .prefetch => []

/-- The calls that have a section. -/
def Call.Waits (call : Call) : Prop := call ≠ .stream ∧ call ≠ .close

/-- The calls that can read with a handle of their own. -/
def Call.Whole (call : Call) : Prop := call = .buffer ∨ call = .text ∨ call = .prefetch

/-- What a section leaves to do. -/
def Call.Done (content : Bytes) (b : Blob) (data : Bytes) : Call → Prop
  | .head n => b.atEof = true ∨ n ≤ b.consumedBytes
  | .buffer | .text => data = content ∧ (b.atEof = true ∨ b.consumedBytes = 0)
  | .prefetch => data = content
  | .stream | .close => False

/-- A cursor that reads has the position of the handle, and a handle of its own the start. -/
def Turn.Sound (content : Bytes) (cursors : List Nat) (b : Blob) : Turn → Prop
  | .idle => True
  | .opening c true => (∃ n, c.call = .head n) ∧ b.atEof = false ∧ b.consumedBytes = 0
  | .opening c false =>
    c.call.Whole ∧ (c.call ≠ .prefetch → b.atEof = false ∧ b.consumedBytes = 0)
  | .windowing c =>
    c.call.Waits ∧ c.call ≠ .prefetch ∧ b.atEof = false ∧
      ∃ handle, b.cursorHandle = some handle ∧ cursors[handle]? = some b.consumedBytes
  | .reading c handle =>
    c.call.Whole ∧ cursors[handle]? = some 0 ∧
      (c.call ≠ .prefetch → b.atEof = false ∧ b.consumedBytes = 0)
  | .ended c outcome => ∀ data, outcome = .ok data → c.call.Done content b data
  | .pulling c handle emitted =>
    c.call = .stream ∧ (handle = none → emitted.flatten = []) ∧
      ∀ h, handle = some h → ∃ pos, cursors[h]? = some pos ∧ emitted.flatten = content.take pos

namespace Scope

structure Sound (content : Bytes) (s : Scope) : Prop where
  blob : s.blob.Sound content
  turn : s.running.Sound content s.cursors s.blob
  waits : ∀ c ∈ s.waiting, c.call.Waits
  awaits : ∀ c ∈ s.awaiting, c.call ≠ .close ∧ c.call ≠ .prefetch
  results : ∀ c data, (c, .ok data) ∈ s.results → data = c.call.expected content

/-- The server reads on where the handle has stopped. -/
def InStep (s : Scope) : Prop :=
  ∀ handle, s.blob.cursorHandle = some handle → s.cursors[handle]? = some s.blob.consumedBytes

/-- No section resumes a cursor that is out of step, or asks a spent one for the whole blob; and
nobody closes the cursor under a call. -/
def Orderly (s : Scope) : Event → Prop
  | .begin => ∀ c, s.waiting.head? = some c → c.call ≠ .prefetch →
      s.InStep ∧ ((∀ n, c.call ≠ .head n) → s.blob.atEof = true → s.blob.consumedBytes = 0)
  | .call .close _ _ => s.AtRest
  | .call .stream inlined stored =>
      s.blob.cached = none → inlined = false → stored = false → s.InStep
  | _ => True

variable {s s' : Scope} {c : Pending}

theorem Sound.answer (h : s.Sound content) {outcome : Except String Bytes}
    (ho : ∀ data, outcome = .ok data → data = c.call.expected content) :
    (s.answer c outcome).Sound content := by
  refine ⟨h.blob, h.turn, h.waits, h.awaits, ?_⟩
  intro c' data hmem
  rcases List.mem_append.mp hmem with hmem | hmem
  · exact h.results c' data hmem
  · obtain ⟨rfl, hdata⟩ := Prod.mk.inj (List.mem_singleton.mp hmem)
    exact ho data hdata.symm

theorem Sound.answer_ok (h : s.Sound content) {data : Bytes}
    (ho : data = c.call.expected content) : (s.answer c (.ok data)).Sound content :=
  h.answer fun _ hdata => (Except.ok.inj hdata).symm.trans ho

theorem Sound.answer_error (h : s.Sound content) (err : String) :
    (s.answer c (.error err)).Sound content := h.answer fun _ hdata => nomatch hdata

theorem Sound.wait (h : s.Sound content) (hc : c.call.Waits) : (s.wait c).Sound content := by
  refine ⟨h.blob, h.turn, ?_, h.awaits, h.results⟩
  intro c' hmem
  rcases List.mem_append.mp hmem with hmem | hmem
  · exact h.waits c' hmem
  · obtain rfl := List.mem_singleton.mp hmem
    exact hc

theorem Sound.await (h : s.Sound content) (hc : c.call ≠ .close ∧ c.call ≠ .prefetch) :
    (s.await c).Sound content := by
  refine ⟨h.blob, h.turn, h.waits, ?_, h.results⟩
  intro c' hmem
  rcases List.mem_append.mp hmem with hmem | hmem
  · exact h.awaits c' hmem
  · obtain rfl := List.mem_singleton.mp hmem
    exact hc

/-- What the section relies on is not what a cache changes. -/
theorem turn_congr {t : Turn} {cursors : List Nat} {b b' : Blob} (h : t.Sound content cursors b)
    (heof : b'.atEof = b.atEof) (hbytes : b'.consumedBytes = b.consumedBytes)
    (hcursor : b'.cursorHandle = b.cursorHandle) : t.Sound content cursors b' := by
  cases t with
  | idle => trivial
  | opening c cursor =>
    cases cursor <;> simp only [Turn.Sound, heof, hbytes] at h ⊢ <;> exact h
  | windowing c =>
    simp only [Turn.Sound, heof, hbytes, hcursor] at h ⊢
    exact h
  | reading c handle =>
    simp only [Turn.Sound, heof, hbytes] at h ⊢
    exact h
  | ended c outcome =>
    intro data hdata
    have hdone := h data hdata
    cases hcall : c.call <;> rw [hcall] at hdone <;>
      simp only [Call.Done, heof, hbytes] at hdone ⊢ <;> exact hdone
  | pulling c handle emitted => exact h

theorem Sound.setBlob (h : s.Sound content) {b : Blob} (hb : b.Sound content)
    (heof : b.atEof = s.blob.atEof) (hbytes : b.consumedBytes = s.blob.consumedBytes)
    (hcursor : b.cursorHandle = s.blob.cursorHandle) :
    ({ s with blob := b } : Scope).Sound content :=
  ⟨hb, turn_congr h.turn heof hbytes hcursor, h.waits, h.awaits, h.results⟩

theorem Sound.setCached (h : s.Sound content) :
    ({ s with blob := { s.blob with cached := some content } } : Scope).Sound content :=
  h.setBlob h.blob.cache rfl rfl rfl

theorem Sound.setTurn (h : s.Sound content) {t : Turn} (ht : t.Sound content s.cursors s.blob) :
    ({ s with running := t } : Scope).Sound content :=
  ⟨h.blob, ht, h.waits, h.awaits, h.results⟩

theorem Sound.headEnd (h : s.Sound content) {n : Int} (hc : c.call = .head n)
    (hread : s.blob.atEof = true ∨ n ≤ s.blob.consumedBytes) : (s.headEnd c n).Sound content := by
  obtain ⟨heof, hbytes, hcursor⟩ := @Blob.promoteIfComplete_fields s.blob
  have hs := h.setBlob h.blob.promote heof hbytes hcursor
  apply hs.answer_ok
  rw [hc, h.blob.head_kept hread]
  rfl

/-! The steps -/

theorem Sound.head (h : s.Sound content) {n : Int} (hc : c.call = .head n) (inlined stored : Bool) :
    (s.head content c n inlined stored).Sound content := by
  unfold Scope.head
  split
  · rename_i hn
    apply h.answer_ok
    have hzero : n.toNat = 0 := by omega
    rw [hc, Call.expected, hzero, List.take_zero]
  split
  · rename_i bytes hcached
    apply h.answer_ok
    rw [hc, h.blob.cached bytes hcached]
    rfl
  split
  · apply h.setCached.answer_ok
    rw [hc]
    rfl
  split
  · apply h.await
    rw [hc]
    exact ⟨(fun hno => nomatch hno), (fun hno => nomatch hno)⟩
  split
  · apply h.wait
    rw [hc]
    exact ⟨(fun hno => nomatch hno), (fun hno => nomatch hno)⟩
  · rename_i hread
    apply h.headEnd hc
    cases heof : s.blob.atEof with
    | true => exact .inl rfl
    | false =>
      rw [heof] at hread
      have hn : ¬ (s.blob.consumedBytes : Int) < n := fun hlt => hread ⟨rfl, hlt⟩
      exact .inr (by omega)

theorem Sound.buffer (h : s.Sound content) (hc : c.call = .buffer ∨ c.call = .text)
    (inlined stored : Bool) : (s.buffer content c inlined stored).Sound content := by
  have hexpected : c.call.expected content = content := by
    rcases hc with hc | hc <;> rw [hc] <;> rfl
  unfold Scope.buffer
  split
  · rename_i bytes hcached
    apply h.answer_ok
    rw [h.blob.cached bytes hcached, hexpected]
  split
  · exact h.setCached.answer_ok hexpected.symm
  split
  · apply h.await
    rcases hc with hc | hc <;> rw [hc] <;> exact ⟨(fun hno => nomatch hno), (fun hno => nomatch hno)⟩
  · apply h.wait
    rcases hc with hc | hc <;> rw [hc] <;> exact ⟨(fun hno => nomatch hno), (fun hno => nomatch hno)⟩

theorem Sound.prefetch (h : s.Sound content) (hc : c.call = .prefetch) (inlined stored : Bool) :
    (s.prefetch content c inlined stored).Sound content := by
  have hexpected : [] = c.call.expected content := by
    rw [hc]
    rfl
  unfold Scope.prefetch
  split
  · exact h.answer_ok hexpected
  split
  · exact h.setCached.answer_ok hexpected
  split
  · exact h.answer_ok hexpected
  · apply h.wait
    rw [hc]
    exact ⟨(fun hno => nomatch hno), (fun hno => nomatch hno)⟩

/-- A stream that takes a cursor over goes on behind the bytes that it has read. -/
theorem pulling_sound {b : Blob} {cursors : List Nat} (hb : b.Sound content)
    (hcached : b.cached = none) (hopen : b.atEof = false) (hc : c.call = .stream)
    (hstep : ∀ handle, b.cursorHandle = some handle → cursors[handle]? = some b.consumedBytes) :
    (Turn.pulling c b.cursorHandle (if b.consumedBytes > 0 then
      [bufferConcat b.consumed b.consumedBytes] else [])).Sound content cursors b.reset := by
  have hemitted : (if b.consumedBytes > 0 then [bufferConcat b.consumed b.consumedBytes]
      else []).flatten = content.take b.consumedBytes := by
    split
    · rw [List.flatten_singleton, hb.concat hcached]
    · rename_i hzero
      have hzero : b.consumedBytes = 0 := by omega
      rw [hzero, List.take_zero, List.flatten_nil]
  refine ⟨hc, ?_, ?_⟩
  · intro hcursor
    rw [hemitted, hb.fresh hcursor hopen, List.take_zero]
  · exact fun handle hcursor => ⟨b.consumedBytes, hstep handle hcursor, hemitted⟩

theorem Sound.stream (h : s.Sound content) (hc : c.call = .stream) {inlined stored : Bool}
    (hok : s.blob.cached = none → inlined = false → stored = false → s.InStep) :
    (s.stream content c inlined stored).Sound content := by
  have hexpected : c.call.expected content = content := by
    rw [hc]
    rfl
  obtain ⟨heof, hbytes, hcursor⟩ := @Blob.promoteIfComplete_fields s.blob
  have hpromote := h.setBlob h.blob.promote heof hbytes hcursor
  have hopen := @Blob.promoteIfComplete_cached s.blob
  have hsame : s.blob.promoteIfComplete.cached = none → s.blob.cached = none := by
    unfold Blob.promoteIfComplete
    split
    · exact fun hno => nomatch hno
    · exact id
  unfold Scope.stream
  generalize s.blob.promoteIfComplete = b at heof hbytes hcursor hpromote hopen hsame
  dsimp only
  split
  · rename_i bytes hcached
    split at hcached
    · rename_i hinlined
      rw [if_pos hinlined]
      have hcache := hpromote.setCached
      apply hcache.answer_ok
      rw [hexpected]
      exact (Option.some.inj hcached).symm
    · rename_i hinlined
      rw [if_neg hinlined]
      apply hpromote.answer_ok
      rw [hexpected]
      exact hpromote.blob.cached bytes hcached
  · rename_i hcached
    split at hcached
    · cases hcached
    · rename_i hinlined
      rw [if_neg hinlined]
      split
      · apply hpromote.await
        rw [hc]
        exact ⟨(fun hno => nomatch hno), (fun hno => nomatch hno)⟩
      · rename_i hstored
        have hlocal : inlined = false := by
          cases inlined with
          | false => rfl
          | true => exact absurd ⟨hcached, rfl⟩ hinlined
        have hstep := hok (hsame hcached) hlocal (by simpa using hstored)
        have hunread : b.atEof = false := by
          cases hend : b.atEof with
          | false => rfl
          | true => exact absurd hcached (hopen (heof.symm.trans hend))
        refine ⟨hpromote.blob.reset, ?_, h.waits, h.awaits, h.results⟩
        apply pulling_sound hpromote.blob hcached hunread hc
        intro handle hhandle
        rw [hbytes]
        exact hstep handle (hcursor.symm.trans hhandle)

theorem AtRest.idle (h : s.AtRest) : s.running = .idle := by
  obtain ⟨hidle, -⟩ := h
  cases hrunning : s.running with
  | idle => rfl
  | opening c cursor => rw [hrunning] at hidle; exact hidle.elim
  | windowing c => rw [hrunning] at hidle; exact hidle.elim
  | reading c handle => rw [hrunning] at hidle; exact hidle.elim
  | ended c outcome => rw [hrunning] at hidle; exact hidle.elim
  | pulling c handle emitted => rw [hrunning] at hidle; exact hidle.elim

theorem Sound.start (h : s.Sound content) {call : Call} {serial : Nat} {inlined stored : Bool}
    (hok : s.Orderly (.call call inlined stored)) :
    (s.start content ⟨serial, call⟩ inlined stored).Sound content := by
  cases call with
  | head n => exact h.head rfl inlined stored
  | buffer => exact h.buffer (.inl rfl) inlined stored
  | text => exact h.buffer (.inr rfl) inlined stored
  | stream => exact h.stream rfl hok
  | close =>
    have hidle : s.running = .idle := AtRest.idle hok
    have hreset : ({ s with blob := s.blob.reset } : Scope).Sound content := by
      refine ⟨h.blob.reset, ?_, h.waits, h.awaits, h.results⟩
      show s.running.Sound content s.cursors s.blob.reset
      rw [hidle]
      trivial
    exact hreset.answer_ok rfl
  | prefetch => exact h.prefetch rfl inlined stored

/-- The call that a turn is for. -/
def caller : Turn → Option Pending
  | .idle => none
  | .opening c _ => some c
  | .windowing c => some c
  | .reading c _ => some c
  | .ended c _ => some c
  | .pulling c _ _ => some c

/-- The loops only set the turn. -/
theorem loop_eq (c : Pending) (s : Scope) :
    ∃ t, s.loop c = { s with running := t } ∧ caller t = some c := by
  unfold Scope.loop
  split <;> split <;> exact ⟨_, rfl, rfl⟩

theorem enter_eq (c : Pending) (s : Scope) :
    ∃ t, s.enter c = { s with running := t } ∧ caller t = some c := by
  unfold Scope.enter
  split
  · split
    · exact ⟨_, rfl, rfl⟩
    split
    · exact ⟨_, rfl, rfl⟩
    · exact loop_eq c s
  · exact ⟨_, rfl, rfl⟩
  · split
    · exact ⟨_, rfl, rfl⟩
    · exact loop_eq c s

theorem Sound.rest (h : s.Sound content) : ({ s with running := .idle } : Scope).Sound content :=
  h.setTurn trivial

/-- The top of the loops, with a cursor that is in step. -/
theorem Sound.loop (h : ({ s with running := .idle } : Scope).Sound content) (hc : c.call.Waits) (hp : c.call ≠ .prefetch)
    (hwhole : (∀ n, c.call ≠ .head n) → s.blob.atEof = true →
      bufferConcat s.blob.consumed s.blob.consumedBytes = content)
    (hcursor : s.blob.atEof = false →
      ∃ handle, s.blob.cursorHandle = some handle ∧
        s.cursors[handle]? = some s.blob.consumedBytes) : (s.loop c).Sound content := by
  have hbuffer : (∀ n, c.call ≠ .head n) → c.call = .buffer ∨ c.call = .text := by
    intro hno
    obtain ⟨hstream, hclose⟩ := hc
    cases hcall : c.call with
    | head n => exact absurd hcall (hno n)
    | buffer => exact .inl rfl
    | text => exact .inr rfl
    | stream => exact absurd hcall hstream
    | close => exact absurd hcall hclose
    | prefetch => exact absurd hcall hp
  have hrest : (∀ n, c.call ≠ .head n) → (if s.blob.atEof then
      { s with running := .ended c (.ok (bufferConcat s.blob.consumed s.blob.consumedBytes)) }
      else { s with running := .windowing c } : Scope).Sound content := by
    intro hno
    split
    · rename_i heof
      apply h.setTurn
      intro data hdata
      obtain rfl := Except.ok.inj hdata
      have hdone : ∀ call, call = .buffer ∨ call = .text →
          Call.Done content s.blob (bufferConcat s.blob.consumed s.blob.consumedBytes) call := by
        rintro call (rfl | rfl) <;> exact ⟨hwhole hno heof, .inl heof⟩
      exact hdone _ (hbuffer hno)
    · rename_i heof
      have hopen : s.blob.atEof = false := by simpa using heof
      exact h.setTurn ⟨hc, hp, hopen, hcursor hopen⟩
  unfold Scope.loop
  split
  · rename_i n hcall
    split
    · rename_i hread
      have hopen : s.blob.atEof = false := by simpa using hread.1
      exact h.setTurn ⟨hc, hp, hopen, hcursor hopen⟩
    · rename_i hread
      apply h.setTurn
      intro data _
      rw [hcall]
      cases heof : s.blob.atEof with
      | true => exact .inl heof
      | false =>
        rw [heof] at hread
        have hn : ¬ (s.blob.consumedBytes : Int) < n := fun hlt => hread ⟨rfl, hlt⟩
        exact .inr (Int.not_lt.mp hn)
  · rename_i hno
    exact hrest hno

theorem Sound.enter (h : s.Sound content) (hc : c.call.Waits)
    (hok : c.call ≠ .prefetch → s.InStep ∧
      ((∀ n, c.call ≠ .head n) → s.blob.atEof = true → s.blob.consumedBytes = 0)) :
    (s.enter c).Sound content := by
  have hopen : ¬ s.blob.cursorHandle = none → c.call ≠ .prefetch →
      ∃ handle, s.blob.cursorHandle = some handle ∧
        s.cursors[handle]? = some s.blob.consumedBytes := by
    intro hcursor hp
    obtain ⟨handle, hhandle⟩ := Option.ne_none_iff_exists'.mp hcursor
    exact ⟨handle, hhandle, (hok hp).1 handle hhandle⟩
  unfold Scope.enter
  split
  · rename_i n hcall
    have hp : c.call ≠ .prefetch := by
      rw [hcall]
      exact fun hno => nomatch hno
    split
    · rename_i heof
      apply h.setTurn
      intro data _
      rw [hcall]
      exact .inl heof
    · rename_i heof
      have hunread : s.blob.atEof = false := by simpa using heof
      split
      · rename_i hcursor
        exact h.setTurn ⟨⟨n, hcall⟩, hunread, h.blob.fresh hcursor hunread⟩
      · rename_i hcursor
        exact h.rest.loop hc hp (fun hno => absurd hcall (hno n)) fun _ => hopen hcursor hp
  · rename_i hcall
    exact h.setTurn ⟨.inr (.inr hcall), fun hno => absurd hcall hno⟩
  · rename_i hhead hp
    have hwhole : c.call.Whole := by
      obtain ⟨hstream, hclose⟩ := hc
      cases hcall : c.call with
      | head n => exact absurd hcall (hhead n)
      | buffer => exact .inl rfl
      | text => exact .inr (.inl rfl)
      | stream => exact absurd hcall hstream
      | close => exact absurd hcall hclose
      | prefetch => exact absurd hcall hp
    split
    · rename_i hnew
      have hunread : s.blob.atEof = false := by simpa using hnew.2.2
      exact h.setTurn ⟨hwhole, fun _ => ⟨hunread, hnew.2.1⟩⟩
    · rename_i hnew
      apply h.rest.loop hc hp
      · intro _ heof
        have hzero := (hok hp).2 hhead heof
        have hlength := (h.blob.spent heof).2.1
        have hempty : content = [] := List.eq_nil_of_length_eq_zero (by omega)
        rw [hzero, hempty]
        exact bufferConcat_zero _
      · intro hunread
        apply hopen _ hp
        intro hcursor
        apply hnew
        rw [hunread]
        exact ⟨hcursor, h.blob.fresh hcursor hunread, rfl⟩

theorem Sound.opened (h : s.Sound content) {cursor : Bool} (hturn : s.running = .opening c cursor)
    (refusal : Option String) : (s.opened c cursor refusal).Sound content := by
  have hnew : (s.cursors ++ [0])[s.cursors.length]? = some 0 := List.getElem?_concat_length
  have ht := h.turn
  rw [hturn] at ht
  unfold Scope.opened
  cases refusal with
  | some err => exact h.setTurn fun data hdata => nomatch hdata
  | none =>
    cases cursor with
    | true =>
      obtain ⟨⟨n, hcall⟩, hunread, hzero⟩ := ht
      have hblob : ({ s.blob with cursorHandle := some s.cursors.length } : Blob).Sound content :=
        ⟨h.blob.cached, h.blob.kept, h.blob.bound,
          (fun heof => absurd (hunread.symm.trans heof) (by decide)), (fun hno => nomatch hno)⟩
      have hs : ({ s with
          cursors := s.cursors ++ [0], running := .idle
          blob := { s.blob with cursorHandle := some s.cursors.length } } : Scope).Sound content :=
        ⟨hblob, trivial, h.waits, h.awaits, h.results⟩
      have hcursor : ∃ handle, some s.cursors.length = some handle ∧
          (s.cursors ++ [0])[handle]? = some s.blob.consumedBytes := by
        rw [hzero]
        exact ⟨_, rfl, hnew⟩
      have hwaits : c.call.Waits ∧ c.call ≠ .prefetch := by
        rw [hcall]
        exact ⟨⟨(fun hno => nomatch hno), (fun hno => nomatch hno)⟩, (fun hno => nomatch hno)⟩
      exact hs.loop hwaits.1 hwaits.2 (fun hno => absurd hcall (hno n)) fun _ => hcursor
    | false => exact ⟨h.blob, ⟨ht.1, hnew, ht.2⟩, h.waits, h.awaits, h.results⟩

/-- A window on a cursor that is in step leaves it in step, or spent. -/
theorem Sound.window_push (h : s.Sound content) (hturn : s.running = .windowing c)
    {replies : List SegmentReply} {cursors : List Nat} {chunks : List Bytes} {eof : Bool}
    (hserve : serveAt content s.cursors s.blob.cursorHandle replies = some cursors)
    (hread : readBlobWindow replies [] false = .ok (chunks, eof)) {b : Blob}
    (hb : s.blob.push chunks eof = b) :
    b.Sound content ∧ (b.atEof = true → bufferConcat b.consumed b.consumedBytes = content) ∧
      (b.atEof = false →
        ∃ handle, b.cursorHandle = some handle ∧ cursors[handle]? = some b.consumedBytes) := by
  have ht := h.turn
  rw [hturn] at ht
  obtain ⟨-, -, hunread, handle, hhandle, hposition⟩ := ht
  rw [hhandle] at hserve
  obtain ⟨pos, pos', hpos, hserve, -, hposition'⟩ := serveAt_some hserve
  obtain rfl := Option.some.inj (hposition.symm.trans hpos)
  have hbase : s.blob.consumed.flatten ++ [].flatten = content.take s.blob.consumedBytes := by
    rw [List.flatten_nil, List.append_nil]
    exact h.blob.kept hunread
  obtain ⟨hchunks, heof⟩ := readBlobWindow_kept hserve hread hbase (fun hno => nomatch hno)
  have hle := serve_le h.blob.bound hserve
  obtain ⟨hblob, hbytes, hflatten, hend, hcursor⟩ :=
    h.blob.push hunread hhandle hle hchunks heof
  rw [hb] at hblob hbytes hflatten hend hcursor
  refine ⟨hblob, ?_, ?_⟩
  · intro hdone
    have hlength := heof (hend.symm.trans hdone)
    rw [hbytes, bufferConcat_take hflatten hle, List.take_of_length_le hlength]
  · intro hmore
    rw [hbytes]
    exact ⟨handle, hcursor (hend.symm.trans hmore), hposition'⟩

theorem Sound.window (h : s.Sound content) (hturn : s.running = .windowing c)
    {replies : List SegmentReply} {cursors : List Nat}
    (hserve : serveAt content s.cursors s.blob.cursorHandle replies = some cursors) :
    (({ s with cursors := cursors } : Scope).window c replies).Sound content := by
  have ht := h.turn
  rw [hturn] at ht
  obtain ⟨hc, hp, -⟩ := ht
  unfold Scope.window
  split
  · have hs : ({ s with cursors := cursors, running := .idle } : Scope).Sound content :=
      ⟨h.blob, trivial, h.waits, h.awaits, h.results⟩
    exact hs.setTurn fun data hdata => nomatch hdata
  · rename_i chunks eof hread
    obtain ⟨hblob, hwhole, hcursor⟩ := h.window_push hturn hserve hread rfl
    have hpush : ({ s with
        cursors := cursors, running := .idle, blob := s.blob.push chunks eof } : Scope).Sound content :=
      ⟨hblob, trivial, h.waits, h.awaits, h.results⟩
    exact hpush.loop hc hp (fun _ => hwhole) hcursor

theorem Sound.whole (h : s.Sound content) {handle : Nat} (hturn : s.running = .reading c handle)
    {replies : List SegmentReply} {cursors : List Nat} {outcome : Except String Bytes}
    (hread : readBlobLoop replies pipelineDepth false [] = some outcome)
    (hserve : serveAt content s.cursors (some handle) replies = some cursors) :
    ({ s with cursors := cursors, running := .ended c outcome } : Scope).Sound content := by
  have ht := h.turn
  rw [hturn] at ht
  obtain ⟨hwhole, hstart, hnew⟩ := ht
  obtain ⟨pos, pos', hpos, hserve, -, -⟩ := serveAt_some hserve
  obtain rfl := Option.some.inj (hstart.symm.trans hpos)
  refine ⟨h.blob, ?_, h.waits, h.awaits, h.results⟩
  intro data hdata
  subst hdata
  have hcontent : data = content :=
    readBlobLoop_content hserve hread rfl (fun hno => nomatch hno) (fun _ => by decide)
  rcases hwhole with hcall | hcall | hcall
  · have hp : c.call ≠ .prefetch := by
      rw [hcall]
      exact fun hno => nomatch hno
    rw [hcall]
    exact ⟨hcontent, .inr (hnew hp).2⟩
  · have hp : c.call ≠ .prefetch := by
      rw [hcall]
      exact fun hno => nomatch hno
    rw [hcall]
    exact ⟨hcontent, .inr (hnew hp).2⟩
  · rw [hcall]
    exact hcontent

theorem Sound.resume (h : s.Sound content) {outcome : Except String Bytes}
    (hturn : s.running = .ended c outcome) : (s.resume c outcome).Sound content := by
  have ht := h.turn
  rw [hturn] at ht
  unfold Scope.resume
  cases outcome with
  | error err => exact h.rest.answer_error err
  | ok data =>
    have hdone := ht data rfl
    have hbuffer : c.call = .buffer ∨ c.call = .text →
        (({ s with running := .idle, blob := { s.blob with cached := some data, consumed := [] } } :
          Scope).answer c (.ok data)).Sound content := by
      intro hcall
      have hread : data = content ∧ (s.blob.atEof = true ∨ s.blob.consumedBytes = 0) := by
        rcases hcall with hcall | hcall <;> rw [hcall] at hdone <;> exact hdone
      obtain ⟨hdata, hread⟩ := hread
      have hblob : ({ s.blob with cached := some data, consumed := [] } : Blob).Sound content := by
        refine ⟨?_, ?_, h.blob.bound, ?_, h.blob.fresh⟩
        · exact fun bytes hbytes => (Option.some.inj hbytes).symm.trans hdata
        · intro hunread
          have hzero : s.blob.consumedBytes = 0 := by
            rcases hread with heof | hzero
            · exact absurd (hunread.symm.trans heof) (by decide)
            · exact hzero
          show [].flatten = content.take s.blob.consumedBytes
          rw [hzero]
          rfl
        · exact fun heof => ⟨(h.blob.spent heof).1, (h.blob.spent heof).2.1, (fun hno => nomatch hno)⟩
      have hs : ({ s with
          running := .idle, blob := { s.blob with cached := some data, consumed := [] } } :
          Scope).Sound content := ⟨hblob, trivial, h.waits, h.awaits, h.results⟩
      apply hs.answer_ok
      rw [hdata]
      rcases hcall with hcall | hcall <;> rw [hcall] <;> rfl
    dsimp only
    split
    · rename_i n hcall
      rw [hcall] at hdone
      exact h.rest.headEnd hcall hdone
    · rename_i hcall
      rw [hcall] at hdone
      obtain rfl : data = content := hdone
      apply h.rest.setCached.answer_ok
      rw [hcall]
      rfl
    · rename_i hhead hp
      apply hbuffer
      cases hcall : c.call with
      | head n => exact absurd hcall (hhead n)
      | buffer => exact .inl rfl
      | text => exact .inr rfl
      | stream =>
        rw [hcall] at hdone
        exact hdone.elim
      | close =>
        rw [hcall] at hdone
        exact hdone.elim
      | prefetch => exact absurd hcall hp

theorem Sound.delivered (h : s.Sound content) (hc : c ∈ s.awaiting) (failure : Option String) :
    (s.delivered content c failure).Sound content := by
  have hs : ({ s with awaiting := s.awaiting.erase c } : Scope).Sound content :=
    ⟨h.blob, h.turn, h.waits, (fun c' hmem => h.awaits c' (List.mem_of_mem_erase hmem)), h.results⟩
  unfold Scope.delivered
  cases failure with
  | some err => exact hs.answer_error err
  | none =>
    apply hs.setCached.answer_ok
    obtain ⟨hclose, hp⟩ := h.awaits c hc
    cases hcall : c.call with
    | close => exact absurd hcall hclose
    | prefetch => exact absurd hcall hp
    | head n => rfl
    | buffer => rfl
    | text => rfl
    | stream => rfl

theorem Sound.segment (h : s.Sound content) {handle : Nat} {emitted : List Bytes}
    (hturn : s.running = .pulling c (some handle) emitted) {reply : SegmentReply} {cursors : List Nat}
    (hserve : serveAt content s.cursors (some handle) [reply] = some cursors) :
    (({ s with cursors := cursors } : Scope).segment c handle emitted reply).Sound content := by
  have ht := h.turn
  rw [hturn] at ht
  obtain ⟨hcall, -, hposition⟩ := ht
  obtain ⟨pos, hpos, hemitted⟩ := hposition handle rfl
  obtain ⟨pos₁, pos', hpos₁, hserve, -, hposition'⟩ := serveAt_some hserve
  obtain rfl := Option.some.inj (hpos.symm.trans hpos₁)
  have hs : ({ s with cursors := cursors, running := .idle } : Scope).Sound content :=
    ⟨h.blob, trivial, h.waits, h.awaits, h.results⟩
  cases reply with
  | refused err => exact hs.answer_error err
  | data bytes eof =>
    obtain ⟨htake, hend, hrest⟩ := serve_data hserve
    obtain rfl := Option.some.inj hrest
    have hmore : (if bytes.length > 0 then emitted ++ [bytes] else emitted).flatten =
        content.take (pos + bytes.length) := by
      split
      · rw [List.flatten_append, List.flatten_singleton, hemitted]
        exact htake
      · rename_i hempty
        have hzero : bytes.length = 0 := by omega
        rw [hemitted, hzero]
        rfl
    unfold Scope.segment
    dsimp only
    split
    · rename_i hlast
      apply hs.answer_ok
      rw [hcall, hmore, List.take_of_length_le (hend hlast)]
      rfl
    · refine hs.setTurn ⟨hcall, (fun hno => nomatch hno), ?_⟩
      intro h hh
      obtain rfl := Option.some.inj hh
      exact ⟨_, hposition', hmore⟩

/-- One case for every event. -/
theorem Sound.step (h : s.Sound content) {e : Event} (hok : s.Orderly e)
    (hstep : s.step content chunkSize e = some s') : s'.Sound content := by
  cases e with
  | call call inlined stored =>
    unfold Scope.step at hstep
    dsimp only at hstep
    split at hstep
    · cases hstep
    · obtain rfl := Option.some.inj hstep
      have hs : ({ s with started := s.started + 1 } : Scope).Sound content :=
        ⟨h.blob, h.turn, h.waits, h.awaits, h.results⟩
      apply hs.start
      cases call with
      | close => exact hok
      | stream => exact hok
      | head n => trivial
      | buffer => trivial
      | text => trivial
      | prefetch => trivial
  | begin =>
    unfold Scope.step at hstep
    dsimp only at hstep
    split at hstep
    · rename_i c waiting hrunning hwaiting
      obtain rfl := Option.some.inj hstep
      have hs : ({ s with waiting := waiting } : Scope).Sound content := by
        refine ⟨h.blob, h.turn, ?_, h.awaits, h.results⟩
        intro c' hmem
        apply h.waits
        rw [hwaiting]
        exact List.mem_cons_of_mem c hmem
      apply hs.enter
      · apply h.waits
        rw [hwaiting]
        exact List.mem_cons_self
      · apply hok
        rw [hwaiting]
        rfl
    · cases hstep
  | opened refusal =>
    unfold Scope.step at hstep
    dsimp only at hstep
    split at hstep
    · rename_i c cursor hrunning
      obtain rfl := Option.some.inj hstep
      exact h.opened hrunning refusal
    · rename_i c emitted hrunning
      have ht := h.turn
      rw [hrunning] at ht
      obtain ⟨hcall, hnone, -⟩ := ht
      split at hstep
      · obtain rfl := Option.some.inj hstep
        exact h.rest.answer_error _
      · obtain rfl := Option.some.inj hstep
        refine ⟨h.blob, ⟨hcall, (fun hno => nomatch hno), ?_⟩, h.waits, h.awaits, h.results⟩
        intro handle hhandle
        obtain rfl := Option.some.inj hhandle
        exact ⟨0, List.getElem?_concat_length, hnone rfl⟩
    · cases hstep
  | window replies =>
    unfold Scope.step at hstep
    dsimp only at hstep
    split at hstep
    · rename_i c hrunning
      split at hstep
      · obtain ⟨cursors, hserve, rfl⟩ := Option.map_eq_some_iff.mp hstep
        exact h.window hrunning hserve
      · cases hstep
    · cases hstep
  | whole replies =>
    unfold Scope.step at hstep
    dsimp only at hstep
    split at hstep
    · rename_i c handle hrunning
      obtain ⟨outcome, hread, hstep⟩ := Option.bind_eq_some_iff.mp hstep
      obtain ⟨cursors, hserve, rfl⟩ := Option.map_eq_some_iff.mp hstep
      exact h.whole hrunning hread hserve
    · cases hstep
  | resume =>
    unfold Scope.step at hstep
    dsimp only at hstep
    split at hstep
    · rename_i c outcome hrunning
      obtain rfl := Option.some.inj hstep
      exact h.resume hrunning
    · cases hstep
  | delivered c failure =>
    unfold Scope.step at hstep
    dsimp only at hstep
    split at hstep
    · rename_i hmem
      obtain rfl := Option.some.inj hstep
      exact h.delivered hmem failure
    · cases hstep
  | segment reply =>
    unfold Scope.step at hstep
    dsimp only at hstep
    split at hstep
    · rename_i c handle emitted hrunning
      obtain ⟨cursors, hserve, rfl⟩ := Option.map_eq_some_iff.mp hstep
      exact h.segment hrunning hserve
    · cases hstep
  | destroyed =>
    unfold Scope.step at hstep
    dsimp only at hstep
    split at hstep
    · obtain rfl := Option.some.inj hstep
      exact h.rest
    · cases hstep

theorem sound_new : ({} : Scope).Sound content :=
  ⟨Blob.sound_new, trivial, (fun _ h => absurd h List.not_mem_nil),
    (fun _ h => absurd h List.not_mem_nil), (fun _ _ h => absurd h List.not_mem_nil)⟩

/-- A call that succeeds returns what the blob has. -/
theorem reachable_sound (h : (machine content chunkSize).Reachable Orderly s) : s.Sound content := by
  apply h.invariant (Scope.Sound content)
  · rintro s rfl
    exact sound_new
  · exact fun s e s' hs hok hstep => hs.step hok hstep

end Scope
end FastFirebird.LazyBlob
