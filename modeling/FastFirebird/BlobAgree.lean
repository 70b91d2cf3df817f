import FastFirebird.BlobReads

/-! `head`, `buffer` and `text` at once on a lazy handle, from a server that refuses nothing. -/
namespace FastFirebird.LazyBlob.Scope

variable {content : Bytes} {chunkSize : Nat} {s s' : Scope} {c : Pending}

/-- The calls that read, and steps without an error. -/
def Served : Event → Prop
  | .call call _ _ => (∃ n, call = .head n) ∨ call = .buffer ∨ call = .text
  | .opened refusal => refusal = none
  | .window replies | .whole replies => ∀ reply ∈ replies, reply.isRefused = false
  | .delivered _ failure => failure = none
  | _ => True

/-- The section of a `buffer` or a `text` does not begin with a cursor that another call has read to
the end. -/
def Unspent (s : Scope) : Event → Prop
  | .begin => ∀ c, s.waiting.head? = some c → (∀ n, c.call ≠ .head n) → s.blob.atEof = true →
      s.blob.consumedBytes = 0
  | _ => True

/-! Answers without a refusal -/

theorem readBlobWindow_ok {replies : List SegmentReply}
    (h : ∀ reply ∈ replies, reply.isRefused = false) (chunks : List Bytes) (eof : Bool) :
    ∃ read, readBlobWindow replies chunks eof = .ok read := by
  induction replies generalizing chunks eof with
  | nil => exact ⟨_, rfl⟩
  | cons reply replies ih =>
    have hrest := fun r hr => h r (List.mem_cons_of_mem reply hr)
    cases reply with
    | refused err =>
      have hno := h _ List.mem_cons_self
      cases hno
    | data bytes eof' =>
      rw [readBlobWindow]
      split
      · exact ih hrest _ _
      · exact ih hrest _ _

theorem readBlobLoop_ok {replies : List SegmentReply} {inFlight : Nat} {eof : Bool} {parts : Bytes}
    {outcome : Except String Bytes} (h : ∀ reply ∈ replies, reply.isRefused = false)
    (hr : readBlobLoop replies inFlight eof parts = some outcome) :
    ∃ bytes, outcome = .ok bytes := by
  induction replies generalizing inFlight eof parts with
  | nil =>
    cases inFlight with
    | zero => exact ⟨parts, (Option.some.inj hr).symm⟩
    | succ inFlight => cases hr
  | cons reply replies ih =>
    have hrest := fun r hr => h r (List.mem_cons_of_mem reply hr)
    cases inFlight with
    | zero => cases hr
    | succ inFlight =>
      cases reply with
      | refused err =>
        have hno := h _ List.mem_cons_self
        cases hno
      | data bytes eof' =>
        rw [readBlobLoop] at hr
        split at hr
        · exact ih hrest hr
        split at hr
        · exact ih hrest hr
        · exact ih hrest hr

/-! The invariant -/

/-- A turn without an error, and a read with a handle of its own only where there is no cursor. -/
def ServedTurn (b : Blob) : Turn → Prop
  | .opening _ false | .reading _ _ => b.cursorHandle = none
  | .ended _ outcome => ∃ data, outcome = .ok data
  | .pulling _ _ _ => False
  | _ => True

structure Agreed (s : Scope) : Prop where
  inStep : s.InStep
  turn : ServedTurn s.blob s.running
  reads : ∀ c ∈ s.waiting, c.call ≠ .prefetch
  answered : ∀ c outcome, (c, outcome) ∈ s.results → ∃ data, outcome = .ok data

theorem servedTurn_congr {t : Turn} {b b' : Blob} (h : ServedTurn b t)
    (hcursor : b'.cursorHandle = b.cursorHandle) : ServedTurn b' t := by
  cases t with
  | opening c cursor =>
    cases cursor with
    | true => trivial
    | false => exact hcursor.trans h
  | reading c handle => exact hcursor.trans h
  | idle => trivial
  | windowing c => trivial
  | ended c outcome => exact h
  | pulling c handle emitted => exact h

/-- A call that reads returns at once, or it waits. -/
theorem start_cases (hc : (∃ n, c.call = .head n) ∨ c.call = .buffer ∨ c.call = .text)
    (inlined stored : Bool) :
    (∃ b data, b.cursorHandle = s.blob.cursorHandle ∧ b.consumedBytes = s.blob.consumedBytes ∧
      s.start content c inlined stored = ({ s with blob := b } : Scope).answer c (.ok data)) ∨
    s.start content c inlined stored = s.wait c ∨ s.start content c inlined stored = s.await c := by
  have hbuffer : (∃ b data, b.cursorHandle = s.blob.cursorHandle ∧
      b.consumedBytes = s.blob.consumedBytes ∧
        s.buffer content c inlined stored = ({ s with blob := b } : Scope).answer c (.ok data)) ∨
      s.buffer content c inlined stored = s.wait c ∨
        s.buffer content c inlined stored = s.await c := by
    unfold Scope.buffer
    split
    · exact .inl ⟨s.blob, _, rfl, rfl, rfl⟩
    split
    · exact .inl ⟨{ s.blob with cached := some content }, _, rfl, rfl, rfl⟩
    split
    · exact .inr (.inr rfl)
    · exact .inr (.inl rfl)
  unfold Scope.start
  rcases hc with ⟨n, hc⟩ | hc | hc
  · rw [hc]
    dsimp only
    unfold Scope.head
    split
    · exact .inl ⟨s.blob, _, rfl, rfl, rfl⟩
    split
    · exact .inl ⟨s.blob, _, rfl, rfl, rfl⟩
    split
    · exact .inl ⟨{ s.blob with cached := some content }, _, rfl, rfl, rfl⟩
    split
    · exact .inr (.inr rfl)
    split
    · exact .inr (.inl rfl)
    · obtain ⟨-, hbytes, hcursor⟩ := @Blob.promoteIfComplete_fields s.blob
      exact .inl ⟨_, _, hcursor, hbytes, rfl⟩
  · rw [hc]
    exact hbuffer
  · rw [hc]
    exact hbuffer

theorem Agreed.answer (h : s.Agreed) (data : Bytes) : (s.answer c (.ok data)).Agreed := by
  refine ⟨h.inStep, h.turn, h.reads, ?_⟩
  intro c' outcome hmem
  rcases List.mem_append.mp hmem with hmem | hmem
  · exact h.answered c' outcome hmem
  · exact ⟨data, (Prod.mk.inj (List.mem_singleton.mp hmem)).2⟩

theorem Agreed.setBlob (h : s.Agreed) {b : Blob} (hcursor : b.cursorHandle = s.blob.cursorHandle)
    (hbytes : b.consumedBytes = s.blob.consumedBytes) : ({ s with blob := b } : Scope).Agreed := by
  refine ⟨?_, servedTurn_congr h.turn hcursor, h.reads, h.answered⟩
  intro handle hhandle
  show s.cursors[handle]? = some b.consumedBytes
  rw [hbytes]
  exact h.inStep handle (hcursor.symm.trans hhandle)

theorem Agreed.setTurn (h : s.Agreed) {t : Turn} (ht : ServedTurn s.blob t) :
    ({ s with running := t } : Scope).Agreed := ⟨h.inStep, ht, h.reads, h.answered⟩

theorem Agreed.start (h : s.Agreed)
    (hc : (∃ n, c.call = .head n) ∨ c.call = .buffer ∨ c.call = .text) (inlined stored : Bool) :
    (s.start content c inlined stored).Agreed := by
  rcases @start_cases content s c hc inlined stored with ⟨b, data, hcursor, hbytes, heq⟩ | heq | heq
  · rw [heq]
    exact (h.setBlob hcursor hbytes).answer data
  · rw [heq]
    refine ⟨h.inStep, h.turn, ?_, h.answered⟩
    intro c' hmem
    rcases List.mem_append.mp hmem with hmem | hmem
    · exact h.reads c' hmem
    · obtain rfl := List.mem_singleton.mp hmem
      rcases hc with ⟨n, hc⟩ | hc | hc <;> rw [hc] <;> exact fun hno => nomatch hno
  · rw [heq]
    exact ⟨h.inStep, h.turn, h.reads, h.answered⟩

theorem Agreed.loop (h : ({ s with running := .idle } : Scope).Agreed) : (s.loop c).Agreed := by
  unfold Scope.loop
  split
  · split
    · exact h.setTurn trivial
    · exact h.setTurn ⟨_, rfl⟩
  · split
    · exact h.setTurn ⟨_, rfl⟩
    · exact h.setTurn trivial

theorem Agreed.enter (h : s.Agreed) (hc : c.call ≠ .prefetch) : (s.enter c).Agreed := by
  have hloop : (s.loop c).Agreed := (h.setTurn (t := .idle) trivial).loop
  unfold Scope.enter
  split
  · split
    · exact h.setTurn ⟨_, rfl⟩
    split
    · exact h.setTurn trivial
    · exact hloop
  · rename_i hcall
    exact absurd hcall hc
  · split
    · rename_i hnew
      exact h.setTurn hnew.1
    · exact hloop

theorem Agreed.opened (h : s.Agreed) (hs : s.Sound content) {cursor : Bool}
    (hturn : s.running = .opening c cursor) : (s.opened c cursor none).Agreed := by
  have hnew : (s.cursors ++ [0])[s.cursors.length]? = some 0 := List.getElem?_concat_length
  have ht := hs.turn
  have hserved := h.turn
  rw [hturn] at ht hserved
  unfold Scope.opened
  cases cursor with
  | true =>
    obtain ⟨-, -, hzero⟩ := ht
    apply Agreed.loop
    refine ⟨?_, trivial, h.reads, h.answered⟩
    intro handle hhandle
    obtain rfl := Option.some.inj hhandle
    show (s.cursors ++ [0])[s.cursors.length]? = some s.blob.consumedBytes
    rw [hzero]
    exact hnew
  | false =>
    have hcursor : s.blob.cursorHandle = none := hserved
    refine ⟨?_, hcursor, h.reads, h.answered⟩
    intro handle hhandle
    cases hcursor.symm.trans hhandle

theorem Agreed.window (h : s.Agreed) (hs : s.Sound content) (hturn : s.running = .windowing c)
    {replies : List SegmentReply} {cursors : List Nat}
    (hreplies : ∀ reply ∈ replies, reply.isRefused = false)
    (hserve : serveAt content s.cursors s.blob.cursorHandle replies = some cursors) :
    (({ s with cursors := cursors } : Scope).window c replies).Agreed := by
  obtain ⟨⟨chunks, eof⟩, hread⟩ := readBlobWindow_ok hreplies [] false
  obtain ⟨hblob, -, hcursor⟩ := hs.window_push hturn hserve hread rfl
  unfold Scope.window
  rw [hread]
  apply Agreed.loop
  refine ⟨?_, trivial, h.reads, h.answered⟩
  intro handle hhandle
  have hopen : (s.blob.push chunks eof).atEof = false := by
    cases heof : (s.blob.push chunks eof).atEof with
    | false => rfl
    | true => cases (hblob.spent heof).1.symm.trans hhandle
  obtain ⟨handle', hhandle', hposition⟩ := hcursor hopen
  obtain rfl := Option.some.inj (hhandle'.symm.trans hhandle)
  exact hposition

theorem Agreed.resume (h : s.Agreed) {outcome : Except String Bytes}
    (hturn : s.running = .ended c outcome) : (s.resume c outcome).Agreed := by
  have ht := h.turn
  rw [hturn] at ht
  obtain ⟨data, rfl⟩ := ht
  have hidle : ({ s with running := .idle } : Scope).Agreed := h.setTurn trivial
  unfold Scope.resume
  dsimp only
  split
  · obtain ⟨-, hbytes, hcursor⟩ := @Blob.promoteIfComplete_fields s.blob
    exact (hidle.setBlob hcursor hbytes).answer _
  · have hblob : ({ s with
        running := .idle, blob := { s.blob with cached := some data } } : Scope).Agreed :=
      hidle.setBlob rfl rfl
    exact hblob.answer _
  · have hblob : ({ s with
        running := .idle, blob := { s.blob with cached := some data, consumed := [] } } :
        Scope).Agreed := hidle.setBlob rfl rfl
    exact hblob.answer _

theorem Agreed.step (h : s.Agreed) (hs : s.Sound content) {e : Event} (hok : Served e)
    (hstep : s.step content chunkSize e = some s') : s'.Agreed := by
  cases e with
  | call call inlined stored =>
    unfold Scope.step at hstep
    dsimp only at hstep
    split at hstep
    · cases hstep
    · obtain rfl := Option.some.inj hstep
      have hnext : ({ s with started := s.started + 1 } : Scope).Agreed :=
        ⟨h.inStep, h.turn, h.reads, h.answered⟩
      apply hnext.start _ inlined stored
      exact hok
  | begin =>
    unfold Scope.step at hstep
    dsimp only at hstep
    split at hstep
    · rename_i c waiting hrunning hwaiting
      obtain rfl := Option.some.inj hstep
      have hrest : ({ s with waiting := waiting } : Scope).Agreed := by
        refine ⟨h.inStep, h.turn, ?_, h.answered⟩
        intro c' hmem
        apply h.reads
        rw [hwaiting]
        exact List.mem_cons_of_mem c hmem
      apply hrest.enter
      apply h.reads
      rw [hwaiting]
      exact List.mem_cons_self
    · cases hstep
  | opened refusal =>
    obtain rfl : refusal = none := hok
    unfold Scope.step at hstep
    dsimp only at hstep
    split at hstep
    · rename_i c cursor hrunning
      obtain rfl := Option.some.inj hstep
      exact h.opened hs hrunning
    · rename_i c emitted hrunning
      have ht := h.turn
      rw [hrunning] at ht
      exact ht.elim
    · cases hstep
  | window replies =>
    unfold Scope.step at hstep
    dsimp only at hstep
    split at hstep
    · rename_i c hrunning
      split at hstep
      · obtain ⟨cursors, hserve, rfl⟩ := Option.map_eq_some_iff.mp hstep
        exact h.window hs hrunning hok hserve
      · cases hstep
    · cases hstep
  | whole replies =>
    unfold Scope.step at hstep
    dsimp only at hstep
    split at hstep
    · rename_i c handle hrunning
      obtain ⟨outcome, hread, hstep⟩ := Option.bind_eq_some_iff.mp hstep
      obtain ⟨cursors, -, rfl⟩ := Option.map_eq_some_iff.mp hstep
      have ht := h.turn
      rw [hrunning] at ht
      have hcursor : s.blob.cursorHandle = none := ht
      refine ⟨?_, readBlobLoop_ok hok hread, h.reads, h.answered⟩
      intro handle' hhandle
      cases hcursor.symm.trans hhandle
    · cases hstep
  | resume =>
    unfold Scope.step at hstep
    dsimp only at hstep
    split at hstep
    · rename_i c outcome hrunning
      obtain rfl := Option.some.inj hstep
      exact h.resume hrunning
    · cases hstep
  | delivered c failure =>
    obtain rfl : failure = none := hok
    unfold Scope.step at hstep
    dsimp only at hstep
    split at hstep
    · obtain rfl := Option.some.inj hstep
      have hcached : ({ s with
          awaiting := s.awaiting.erase c, blob := { s.blob with cached := some content } } :
          Scope).Agreed := ⟨h.inStep, servedTurn_congr h.turn rfl, h.reads, h.answered⟩
      exact hcached.answer _
    · cases hstep
  | segment reply =>
    unfold Scope.step at hstep
    dsimp only at hstep
    split at hstep
    · rename_i c handle emitted hrunning
      have ht := h.turn
      rw [hrunning] at ht
      exact ht.elim
    · cases hstep
  | destroyed =>
    unfold Scope.step at hstep
    dsimp only at hstep
    split at hstep
    · rename_i c handle emitted hrunning
      have ht := h.turn
      rw [hrunning] at ht
      exact ht.elim
    · cases hstep

/-! No call is lost -/

/-- A call has its answer, or it waits. -/
def Parked (s : Scope) (c : Pending) : Prop :=
  (∃ outcome, (c, outcome) ∈ s.results) ∨ c ∈ s.waiting ∨ c ∈ s.awaiting

def Kept (s : Scope) (c : Pending) : Prop := s.Parked c ∨ caller s.running = some c

theorem kept_answer {c' : Pending} {outcome : Except String Bytes} (h : s.Kept c' ∨ c' = c) :
    (s.answer c outcome).Kept c' := by
  rcases h with ((⟨outcome', hmem⟩ | hwaits) | hrunning) | rfl
  · exact .inl (.inl ⟨outcome', List.mem_append_left _ hmem⟩)
  · exact .inl (.inr hwaits)
  · exact .inr hrunning
  · exact .inl (.inl ⟨outcome, List.mem_append_right _ List.mem_cons_self⟩)

theorem kept_wait {c' : Pending} (h : s.Kept c' ∨ c' = c) : (s.wait c).Kept c' := by
  rcases h with ((hanswered | hwaiting | hawaiting) | hrunning) | rfl
  · exact .inl (.inl hanswered)
  · exact .inl (.inr (.inl (List.mem_append_left _ hwaiting)))
  · exact .inl (.inr (.inr hawaiting))
  · exact .inr hrunning
  · exact .inl (.inr (.inl (List.mem_append_right _ List.mem_cons_self)))

theorem kept_await {c' : Pending} (h : s.Kept c' ∨ c' = c) : (s.await c).Kept c' := by
  rcases h with ((hanswered | hwaiting | hawaiting) | hrunning) | rfl
  · exact .inl (.inl hanswered)
  · exact .inl (.inr (.inl hwaiting))
  · exact .inl (.inr (.inr (List.mem_append_left _ hawaiting)))
  · exact .inr hrunning
  · exact .inl (.inr (.inr (List.mem_append_right _ List.mem_cons_self)))

/-- What a step does to those who wait: nobody is lost, and a call that starts is not. -/
def Keeps (s s' : Scope) : Prop :=
  (∀ c, s.Kept c → s'.Kept c) ∧ (s'.started = s.started ∨
    s'.started = s.started + 1 ∧ ∃ c : Pending, c.serial = s.started ∧ s'.Kept c)

theorem keeps_start {call : Call}
    (hc : (∃ n, call = .head n) ∨ call = .buffer ∨ call = .text) (inlined stored : Bool) :
    s.Keeps ({ s with started := s.started + 1 }.start content ⟨s.started, call⟩ inlined stored) := by
  rcases @start_cases content { s with started := s.started + 1 } ⟨s.started, call⟩ hc inlined stored
    with ⟨b, data, -, -, heq⟩ | heq | heq
  · rw [heq]
    exact ⟨fun c hkept => kept_answer (.inl hkept), .inr ⟨rfl, _, rfl, kept_answer (.inr rfl)⟩⟩
  · rw [heq]
    exact ⟨fun c hkept => kept_wait (.inl hkept), .inr ⟨rfl, _, rfl, kept_wait (.inr rfl)⟩⟩
  · rw [heq]
    exact ⟨fun c hkept => kept_await (.inl hkept), .inr ⟨rfl, _, rfl, kept_await (.inr rfl)⟩⟩

/-- A step that answers, or goes on with, who is running. -/
theorem keeps_of (hanswered : ∀ x ∈ s.results, x ∈ s'.results)
    (hwaiting : ∀ c ∈ s.waiting, s'.Kept c) (hawaiting : ∀ c ∈ s.awaiting, s'.Kept c)
    (hrunning : ∀ c, caller s.running = some c → s'.Kept c) (hstarted : s'.started = s.started) :
    s.Keeps s' := by
  refine ⟨?_, .inl hstarted⟩
  rintro c ((⟨outcome, hmem⟩ | hmem | hmem) | hcaller)
  · exact .inl (.inl ⟨outcome, hanswered _ hmem⟩)
  · exact hwaiting c hmem
  · exact hawaiting c hmem
  · exact hrunning c hcaller

theorem keeps_turn (hresults : s'.results = s.results) (hwaiting : s'.waiting = s.waiting)
    (hawaiting : s'.awaiting = s.awaiting) (hstarted : s'.started = s.started)
    (hcaller : caller s'.running = caller s.running) : s.Keeps s' := by
  apply keeps_of _ _ _ _ hstarted
  · rw [hresults]
    exact fun _ h => h
  · rw [← hwaiting]
    exact fun c h => .inl (.inr (.inl h))
  · rw [← hawaiting]
    exact fun c h => .inl (.inr (.inr h))
  · rw [← hcaller]
    exact fun c h => .inr h

theorem keeps_loop {b : Blob} {cursors : List Nat} (hcaller : caller s.running = some c) :
    s.Keeps (({ s with blob := b, cursors := cursors } : Scope).loop c) := by
  obtain ⟨t, heq, ht⟩ := loop_eq c { s with blob := b, cursors := cursors }
  rw [heq]
  exact keeps_turn rfl rfl rfl rfl (ht.trans hcaller.symm)

/-- The result of the call that was running. -/
theorem keeps_answer {b : Blob} {outcome : Except String Bytes} (hcaller : caller s.running = some c) :
    s.Keeps (({ s with blob := b, running := .idle } : Scope).answer c outcome) := by
  apply keeps_of
  · exact fun x h => List.mem_append_left _ h
  · exact fun c' h => .inl (.inr (.inl h))
  · exact fun c' h => .inl (.inr (.inr h))
  · intro c' h
    obtain rfl := Option.some.inj (hcaller.symm.trans h)
    exact .inl (.inl ⟨outcome, List.mem_append_right _ List.mem_cons_self⟩)
  · rfl

theorem keeps_resume {outcome : Except String Bytes} (hturn : s.running = .ended c outcome) :
    s.Keeps (s.resume c outcome) := by
  have hcaller : caller s.running = some c := by
    rw [hturn]
    rfl
  unfold Scope.resume
  cases outcome with
  | error err => exact keeps_answer hcaller
  | ok data =>
    dsimp only
    split
    · exact keeps_answer hcaller
    · exact keeps_answer hcaller
    · exact keeps_answer hcaller

theorem keeps_delivered : s.Keeps (s.delivered content c none) := by
  have hmem {x : Pending × Except String Bytes} {y : Pending × Except String Bytes}
      (h : x ∈ s.results) : x ∈ s.results ++ [y] := List.mem_append_left _ h
  apply keeps_of
  · exact fun x h => hmem h
  · exact fun c' h => .inl (.inr (.inl h))
  · intro c' h
    by_cases hsame : c' = c
    · rw [hsame]
      exact .inl (.inl ⟨_, List.mem_append_right _ List.mem_cons_self⟩)
    · exact .inl (.inr (.inr ((List.mem_erase_of_ne hsame).mpr h)))
  · exact fun c' h => .inr h
  · rfl

theorem keeps_step (h : s.Agreed) {e : Event} (hok : Served e)
    (hstep : s.step content chunkSize e = some s') : s.Keeps s' := by
  cases e with
  | call call inlined stored =>
    unfold Scope.step at hstep
    dsimp only at hstep
    split at hstep
    · cases hstep
    · obtain rfl := Option.some.inj hstep
      exact keeps_start hok inlined stored
  | begin =>
    unfold Scope.step at hstep
    dsimp only at hstep
    split at hstep
    · rename_i c waiting hrunning hwaiting
      obtain rfl := Option.some.inj hstep
      obtain ⟨t, heq, ht⟩ := enter_eq c { s with waiting := waiting }
      rw [heq]
      apply keeps_of
      · exact fun x hx => hx
      · intro c' hmem
        rw [hwaiting] at hmem
        rcases List.mem_cons.mp hmem with rfl | hmem
        · exact .inr ht
        · exact .inl (.inr (.inl hmem))
      · exact fun c' hmem => .inl (.inr (.inr hmem))
      · intro c' hcaller
        rw [hrunning] at hcaller
        cases hcaller
      · rfl
    · cases hstep
  | opened refusal =>
    obtain rfl : refusal = none := hok
    unfold Scope.step at hstep
    dsimp only at hstep
    split at hstep
    · rename_i c cursor hrunning
      obtain rfl := Option.some.inj hstep
      have hcaller : caller s.running = some c := by
        rw [hrunning]
        rfl
      cases cursor with
      | true => exact keeps_loop hcaller
      | false => exact keeps_turn rfl rfl rfl rfl hcaller.symm
    · rename_i c emitted hrunning
      have ht := h.turn
      rw [hrunning] at ht
      exact ht.elim
    · cases hstep
  | window replies =>
    unfold Scope.step at hstep
    dsimp only at hstep
    split at hstep
    · rename_i c hrunning
      have hcaller : caller s.running = some c := by
        rw [hrunning]
        rfl
      split at hstep
      · obtain ⟨cursors, -, rfl⟩ := Option.map_eq_some_iff.mp hstep
        unfold Scope.window
        split
        · exact keeps_turn rfl rfl rfl rfl hcaller.symm
        · exact keeps_loop hcaller
      · cases hstep
    · cases hstep
  | whole replies =>
    unfold Scope.step at hstep
    dsimp only at hstep
    split at hstep
    · rename_i c handle hrunning
      obtain ⟨outcome, -, hstep⟩ := Option.bind_eq_some_iff.mp hstep
      obtain ⟨cursors, -, rfl⟩ := Option.map_eq_some_iff.mp hstep
      have hcaller : caller s.running = some c := by
        rw [hrunning]
        rfl
      exact keeps_turn rfl rfl rfl rfl hcaller.symm
    · cases hstep
  | resume =>
    unfold Scope.step at hstep
    dsimp only at hstep
    split at hstep
    · rename_i c outcome hrunning
      obtain rfl := Option.some.inj hstep
      exact keeps_resume hrunning
    · cases hstep
  | delivered c failure =>
    obtain rfl : failure = none := hok
    unfold Scope.step at hstep
    dsimp only at hstep
    split at hstep
    · obtain rfl := Option.some.inj hstep
      exact keeps_delivered
    · cases hstep
  | segment reply =>
    unfold Scope.step at hstep
    dsimp only at hstep
    split at hstep
    · rename_i c handle emitted hrunning
      have ht := h.turn
      rw [hrunning] at ht
      exact ht.elim
    · cases hstep
  | destroyed =>
    unfold Scope.step at hstep
    dsimp only at hstep
    split at hstep
    · rename_i c handle emitted hrunning
      have ht := h.turn
      rw [hrunning] at ht
      exact ht.elim
    · cases hstep

/-! A call in progress goes on -/

theorem serve_empty (pos count : Nat) :
    serve content pos (List.replicate count (.data [] false)) = some pos := by
  induction count with
  | zero => rfl
  | succ count ih =>
    have hdata : ([] : Bytes) = (content.drop pos).take ([] : Bytes).length ∧
        (false = true → pos + ([] : Bytes).length = content.length) :=
      ⟨rfl, fun hno => absurd hno Bool.false_ne_true⟩
    rw [List.replicate_succ, serve, if_pos hdata]
    exact ih

/-- The whole blob at once, and the answers behind its end. -/
theorem serve_whole : serve content 0 (lastWindow content) = some content.length := by
  have hrest (n : Nat) :
      serve content content.length (List.replicate n (.data [] true)) = some content.length := by
    induction n with
    | zero => rfl
    | succ n ih =>
      rw [List.replicate_succ, serve, if_pos ⟨rfl, fun _ => rfl⟩]
      exact ih
  have hall : content = (content.drop 0).take content.length := List.take_length.symm
  rw [lastWindow, serve, if_pos ⟨hall, fun _ => Nat.zero_add _⟩, Nat.zero_add]
  exact hrest 31

/-- What comes behind the end is dropped. -/
theorem readBlobLoop_drained (parts : Bytes) (count : Nat) :
    readBlobLoop (List.replicate count (.data [] true)) count true parts = some (.ok parts) := by
  induction count with
  | zero => rfl
  | succ count ih =>
    rw [List.replicate_succ, readBlobLoop, if_pos rfl]
    exact ih

theorem readBlobLoop_whole (bytes : Bytes) :
    readBlobLoop (lastWindow bytes) pipelineDepth false [] = some (.ok bytes) := by
  have hdepth : pipelineDepth = 31 + 1 := rfl
  rw [hdepth, lastWindow, readBlobLoop, if_neg Bool.false_ne_true, if_pos rfl, List.nil_append]
  exact readBlobLoop_drained bytes 31

/-- Nothing is stuck: the engine, or an answer that the server can give, comes next. -/
theorem progress (h : s.Agreed) (hs : s.Sound content) (hbusy : ¬ s.AtRest) :
    ∃ e s', (∀ call inlined stored, e ≠ .call call inlined stored) ∧
      s.step content chunkSize e = some s' := by
  have ht := hs.turn
  have hserved := h.turn
  cases hrunning : s.running with
  | idle =>
    cases hwaiting : s.waiting with
    | cons c waiting =>
      refine ⟨.begin, ({ s with waiting := waiting } : Scope).enter c, (fun _ _ _ hno => nomatch hno), ?_⟩
      unfold Scope.step
      rw [hrunning, hwaiting]
    | nil =>
      cases hawaiting : s.awaiting with
      | nil =>
        refine absurd ⟨?_, hwaiting, hawaiting⟩ hbusy
        rw [hrunning]
        trivial
      | cons c awaiting =>
        refine ⟨.delivered c none, _, (fun _ _ _ hno => nomatch hno), if_pos ?_⟩
        rw [hawaiting]
        exact List.mem_cons_self
  | opening c cursor =>
    refine ⟨.opened none, s.opened c cursor none, (fun _ _ _ hno => nomatch hno), ?_⟩
    unfold Scope.step
    rw [hrunning]
  | windowing c =>
    rw [hrunning] at ht
    obtain ⟨-, -, -, handle, hhandle, hposition⟩ := ht
    let replies := List.replicate (s.windowCount chunkSize c) (SegmentReply.data [] false)
    have hserve : serveAt content s.cursors s.blob.cursorHandle replies =
        some (s.cursors.set handle s.blob.consumedBytes) := by
      rw [hhandle, serveAt, hposition, Option.bind_some, serve_empty]
      rfl
    refine ⟨.window replies, _, (fun _ _ _ hno => nomatch hno),
      (?_ : _ = some (({ s with cursors := s.cursors.set handle s.blob.consumedBytes } :
        Scope).window c replies))⟩
    unfold Scope.step
    rw [hrunning]
    dsimp only
    rw [if_pos List.length_replicate, hserve]
    rfl
  | reading c handle =>
    rw [hrunning] at ht
    obtain ⟨-, hstart, -⟩ := ht
    have hserve : serveAt content s.cursors (some handle) (lastWindow content) =
        some (s.cursors.set handle content.length) := by
      rw [serveAt, hstart, Option.bind_some, serve_whole]
      rfl
    refine ⟨.whole (lastWindow content), _, (fun _ _ _ hno => nomatch hno),
      (?_ : _ = some ({ s with
        cursors := s.cursors.set handle content.length, running := .ended c (.ok content) } : Scope))⟩
    unfold Scope.step
    rw [hrunning]
    dsimp only
    rw [readBlobLoop_whole, Option.bind_some, hserve]
    rfl
  | ended c outcome =>
    refine ⟨.resume, s.resume c outcome, (fun _ _ _ hno => nomatch hno), ?_⟩
    unfold Scope.step
    rw [hrunning]
  | pulling c handle emitted =>
    rw [hrunning] at hserved
    exact hserved.elim

/-! The result -/

theorem Agreed.orderly (h : s.Agreed) {e : Event} (hserved : Served e) (hunspent : s.Unspent e) :
    s.Orderly e := by
  cases e with
  | call call inlined stored =>
    rcases hserved with ⟨n, rfl⟩ | rfl | rfl <;> trivial
  | begin => exact fun c hhead _ => ⟨h.inStep, hunspent c hhead⟩
  | opened refusal => trivial
  | window replies => trivial
  | whole replies => trivial
  | resume => trivial
  | delivered c failure => trivial
  | segment reply => trivial
  | destroyed => trivial

theorem reachable_agreed
    (h : (machine content chunkSize).Reachable (fun s e => Served e ∧ s.Unspent e) s) :
    s.Agreed ∧ s.Sound content ∧ ∀ i < s.started, ∃ c : Pending, c.serial = i ∧ s.Kept c := by
  apply h.invariant fun s => s.Agreed ∧ s.Sound content ∧
    ∀ i < s.started, ∃ c : Pending, c.serial = i ∧ s.Kept c
  · rintro s rfl
    refine ⟨⟨(fun _ hno => nomatch hno), trivial, ?_, ?_⟩, sound_new, ?_⟩
    · exact fun c hno => absurd hno List.not_mem_nil
    · exact fun c outcome hno => absurd hno List.not_mem_nil
    · exact fun i hi => absurd hi (Nat.not_lt_zero i)
  · rintro s e s' ⟨hagreed, hsound, hkept⟩ ⟨hserved, hunspent⟩ hstep
    obtain ⟨hkeeps, hstarted⟩ := keeps_step hagreed hserved hstep
    refine ⟨hagreed.step hsound hserved hstep,
      hsound.step (hagreed.orderly hserved hunspent) hstep, ?_⟩
    intro i hi
    have hold (hi : i < s.started) : ∃ c : Pending, c.serial = i ∧ s'.Kept c := by
      obtain ⟨c, hserial, hc⟩ := hkept i hi
      exact ⟨c, hserial, hkeeps c hc⟩
    rcases hstarted with hsame | ⟨hnext, c, hserial, hc⟩
    · exact hold (by omega)
    · by_cases hlast : i = s.started
      · exact ⟨c, hserial.trans hlast.symm, hc⟩
      · exact hold (by omega)

/-- Every call has the whole blob or the first bytes that it has asked for, or it is in progress,
and what is in progress goes on. -/
theorem concurrent_reads_agree (content : Bytes) (chunkSize : Nat) {s : Scope}
    (h : (machine content chunkSize).Reachable (fun s e => Served e ∧ s.Unspent e) s) :
    (∀ c outcome, (c, outcome) ∈ s.results → outcome = .ok (c.call.expected content)) ∧
    (∀ i < s.started, ∃ c : Pending, c.serial = i ∧ s.Kept c) ∧
    (¬ s.AtRest → ∃ e s', (∀ call inlined stored, e ≠ .call call inlined stored) ∧
      s.step content chunkSize e = some s') := by
  obtain ⟨hagreed, hsound, hkept⟩ := reachable_agreed h
  refine ⟨?_, hkept, progress hagreed hsound⟩
  intro c outcome hmem
  obtain ⟨data, rfl⟩ := hagreed.answered c outcome hmem
  rw [hsound.results c data hmem]

theorem lastWindow_served (bytes : Bytes) : ∀ reply ∈ lastWindow bytes, reply.isRefused = false := by
  intro reply hreply
  rcases List.mem_cons.mp hreply with rfl | hrest
  · rfl
  · rw [List.eq_of_mem_replicate hrest]
    rfl

/-- Two calls at once on a new handle. -/
theorem concurrent_reads_agree_two :
    ∃ s : Scope, s.results.map Prod.snd = [.ok [65], .ok [65, 66]] ∧
      ∀ c outcome, (c, outcome) ∈ s.results → outcome = .ok (c.call.expected [65, 66]) := by
  have hone : ∀ reply ∈ [SegmentReply.data [65] false], reply.isRefused = false := by decide
  have h₀ : (machine [65, 66] 1).Reachable (fun s e => Served e ∧ s.Unspent e) {} := .init rfl
  have h₁ := h₀.step (e := Event.call (.head 1) false false) ⟨.inl ⟨1, rfl⟩, trivial⟩ rfl
  have h₂ := h₁.step (e := Event.call .buffer false false) ⟨.inr (.inl rfl), trivial⟩ rfl
  have h₃ := h₂.step (e := Event.begin) ⟨trivial, fun _ _ _ hno => nomatch hno⟩ rfl
  have h₄ := h₃.step (e := Event.opened none) ⟨rfl, trivial⟩ rfl
  have h₅ := h₄.step (e := Event.window [.data [65] false]) ⟨hone, trivial⟩ rfl
  have h₆ := h₅.step (e := Event.resume) ⟨trivial, trivial⟩ rfl
  have h₇ := h₆.step (e := Event.begin) ⟨trivial, fun _ _ _ hno => nomatch hno⟩ rfl
  have h₈ := h₇.step (e := Event.window (lastWindow [66])) ⟨lastWindow_served _, trivial⟩ rfl
  have h₉ := h₈.step (e := Event.resume) ⟨trivial, trivial⟩ rfl
  exact ⟨_, rfl, (concurrent_reads_agree _ _ h₉).1⟩

/-- Two calls at once behind a `head`: the second finds the cursor at its end, and what the first has
read gone. -/
theorem spent_cursor_reads_nothing :
    ¬ ∀ s : Scope, (machine [65, 66] 1).Reachable (fun _ e => Served e) s →
      ∀ c outcome, (c, outcome) ∈ s.results → outcome = .ok (c.call.expected [65, 66]) := by
  intro hall
  have hone : ∀ reply ∈ [SegmentReply.data [65] false], reply.isRefused = false := by decide
  have h₀ : (machine [65, 66] 1).Reachable (fun _ e => Served e) {} := .init rfl
  have h₁ := h₀.step (e := Event.call (.head 1) false false) (.inl ⟨1, rfl⟩) rfl
  have h₂ := h₁.step (e := Event.begin) trivial rfl
  have h₃ := h₂.step (e := Event.opened none) rfl rfl
  have h₄ := h₃.step (e := Event.window [.data [65] false]) hone rfl
  have h₅ := h₄.step (e := Event.resume) trivial rfl
  have h₆ := h₅.step (e := Event.call .buffer false false) (.inr (.inl rfl)) rfl
  have h₇ := h₆.step (e := Event.call .buffer false false) (.inr (.inl rfl)) rfl
  have h₈ := h₇.step (e := Event.begin) trivial rfl
  have h₉ := h₈.step (e := Event.window (lastWindow [66])) (lastWindow_served _) rfl
  have h₁₀ := h₉.step (e := Event.resume) trivial rfl
  have h₁₁ := h₁₀.step (e := Event.begin) trivial rfl
  have h₁₂ := h₁₁.step (e := Event.resume) trivial rfl
  have hnothing := hall _ h₁₂ ⟨2, .buffer⟩ (.ok [])
    (List.mem_cons_of_mem _ (List.mem_cons_of_mem _ List.mem_cons_self))
  exact absurd (Except.ok.inj hnothing) (by decide)

end FastFirebird.LazyBlob.Scope
