import FastFirebird.BlobReads

/-! Calls on a lazy handle one behind the other: no result has a hole, unless a call resumes a
cursor that a failed window has moved. -/
namespace FastFirebird.LazyBlob.Scope

variable {content : Bytes} {chunkSize : Nat} {s s' : Scope} {c : Pending}

/-- A call comes when no other is in progress, and a cursor that it resumes is where the handle has
stopped. -/
def Resumable (s : Scope) : Event → Prop
  | .call call inlined stored => s.AtRest ∧
      (call = .stream → s.blob.cached = none → inlined = false → stored = false → s.InStep)
  | .begin => ∀ c, s.waiting.head? = some c → c.call ≠ .prefetch → s.InStep
  | _ => True

/-- A cursor at its end is the cache, as soon as the call that has read it has returned; and who
waits is alone, and does so because nothing is cached. -/
structure Alone (s : Scope) : Prop where
  settled : (∀ c data, s.running ≠ .ended c (.ok data)) → s.blob.atEof = true →
    s.blob.cached ≠ none
  single : s.waiting = [] ∨ ∃ c, s.waiting = [c] ∧ s.running = .idle ∧ s.awaiting = [] ∧
    s.blob.cached = none

section Start
variable (hsettled : s.blob.atEof = true → s.blob.cached ≠ none) (hrest : s.AtRest)
include hsettled hrest

theorem alone_answer (outcome : Except String Bytes) : (s.answer c outcome).Alone :=
  ⟨fun _ => hsettled, .inl hrest.2.1⟩

theorem alone_await : (s.await c).Alone := ⟨fun _ => hsettled, .inl hrest.2.1⟩

theorem alone_wait (hcached : s.blob.cached = none) : (s.wait c).Alone := by
  refine ⟨fun _ => hsettled, .inr ⟨c, ?_, hrest.idle, hrest.2.2, hcached⟩⟩
  show s.waiting ++ [c] = [c]
  rw [hrest.2.1]
  rfl

omit hsettled in
theorem alone_cached (outcome : Except String Bytes) :
    (({ s with blob := { s.blob with cached := some content } } : Scope).answer c outcome).Alone :=
  ⟨(fun _ _ hno => nomatch hno), .inl hrest.2.1⟩

theorem alone_buffer (inlined stored : Bool) : (s.buffer content c inlined stored).Alone := by
  unfold Scope.buffer
  split
  · exact alone_answer hsettled hrest _
  rename_i hcached
  split
  · exact alone_cached hrest _
  split
  · exact alone_await hsettled hrest
  · exact alone_wait hsettled hrest hcached

omit hsettled in
theorem alone_stream (inlined stored : Bool) : (s.stream content c inlined stored).Alone := by
  have hpromoted : s.blob.promoteIfComplete.atEof = true →
      s.blob.promoteIfComplete.cached ≠ none := by
    intro heof
    have hfields := @Blob.promoteIfComplete_fields s.blob
    exact Blob.promoteIfComplete_cached (hfields.1.symm.trans heof)
  unfold Scope.stream
  generalize s.blob.promoteIfComplete = b at hpromoted
  dsimp only
  have hb : (if b.cached = none ∧ inlined then { b with cached := some content } else b).atEof =
      true → (if b.cached = none ∧ inlined then { b with cached := some content } else b).cached ≠
        none := by
    split
    · exact fun _ hno => nomatch hno
    · exact hpromoted
  generalize (if b.cached = none ∧ inlined then { b with cached := some content } else b) = b' at hb
  split
  · exact ⟨fun _ => hb, .inl hrest.2.1⟩
  split
  · exact ⟨fun _ => hb, .inl hrest.2.1⟩
  · exact ⟨(fun _ hno => nomatch hno), .inl hrest.2.1⟩

theorem alone_start (inlined stored : Bool) : (s.start content c inlined stored).Alone := by
  unfold Scope.start
  split
  · rename_i n hcall
    unfold Scope.head
    split
    · exact alone_answer hsettled hrest _
    split
    · exact alone_answer hsettled hrest _
    rename_i hcached
    split
    · exact alone_cached hrest _
    split
    · exact alone_await hsettled hrest
    split
    · exact alone_wait hsettled hrest hcached
    · refine ⟨fun _ heof => ?_, .inl hrest.2.1⟩
      have hfields := @Blob.promoteIfComplete_fields s.blob
      exact Blob.promoteIfComplete_cached (hfields.1.symm.trans heof)
  · exact alone_buffer hsettled hrest inlined stored
  · exact alone_buffer hsettled hrest inlined stored
  · exact alone_stream hrest inlined stored
  · exact ⟨(fun _ hno => nomatch hno), .inl hrest.2.1⟩
  · unfold Scope.prefetch
    split
    · exact alone_answer hsettled hrest _
    rename_i hnew
    split
    · exact alone_cached hrest _
    split
    · exact alone_answer hsettled hrest _
    · apply alone_wait hsettled hrest
      by_contra hcached
      exact hnew (.inl hcached)

end Start

/-- The loops end where the blob does. -/
theorem loop_settled (hmore : ∀ c' data, (s.loop c).running ≠ .ended c' (.ok data)) :
    s.blob.atEof = false := by
  revert hmore
  unfold Scope.loop
  split
  · split
    · rename_i hread
      exact fun _ => by simpa using hread.1
    · exact fun hmore => absurd rfl (hmore c [])
  · split
    · exact fun hmore => absurd rfl (hmore c _)
    · rename_i heof
      exact fun _ => by simpa using heof

/-- Whoever is running, nobody waits. -/
theorem Alone.waiting_nil (h : s.Alone) (hrunning : s.running ≠ .idle) : s.waiting = [] := by
  rcases h.single with hnil | ⟨c, -, hidle, -⟩
  · exact hnil
  · exact absurd hidle hrunning

theorem alone_loop (hwaiting : s.waiting = []) : (s.loop c).Alone := by
  have hsettled := @loop_settled s c
  obtain ⟨t, heq, -⟩ := loop_eq c s
  rw [heq] at hsettled ⊢
  refine ⟨fun hmore heof => ?_, .inl hwaiting⟩
  exact absurd ((hsettled hmore).symm.trans heof) (by decide)

theorem alone_enter (hsettled : s.blob.atEof = true → s.blob.cached ≠ none)
    (hwaiting : s.waiting = []) : (s.enter c).Alone := by
  obtain ⟨t, heq, -⟩ := enter_eq c s
  rw [heq]
  exact ⟨fun _ => hsettled, .inl hwaiting⟩

theorem alone_opened (h : s.Alone) {cursor : Bool} (hturn : s.running = .opening c cursor)
    (refusal : Option String) : (s.opened c cursor refusal).Alone := by
  have hwaiting := h.waiting_nil (by rw [hturn]; exact fun hno => nomatch hno)
  have hsettled := h.settled (by rw [hturn]; exact fun _ _ hno => nomatch hno)
  unfold Scope.opened
  cases refusal with
  | some err => exact ⟨fun _ => hsettled, .inl hwaiting⟩
  | none =>
    cases cursor with
    | true => exact alone_loop hwaiting
    | false => exact ⟨fun _ => hsettled, .inl hwaiting⟩

theorem alone_window (h : s.Alone) (hturn : s.running = .windowing c)
    (replies : List SegmentReply) : (s.window c replies).Alone := by
  have hwaiting := h.waiting_nil (by rw [hturn]; exact fun hno => nomatch hno)
  have hsettled := h.settled (by rw [hturn]; exact fun _ _ hno => nomatch hno)
  unfold Scope.window
  split
  · exact ⟨fun _ => hsettled, .inl hwaiting⟩
  · exact alone_loop hwaiting

theorem alone_resume (h : s.Alone) {outcome : Except String Bytes}
    (hturn : s.running = .ended c outcome) : (s.resume c outcome).Alone := by
  have hwaiting := h.waiting_nil (by rw [hturn]; exact fun hno => nomatch hno)
  unfold Scope.resume
  cases outcome with
  | error err =>
    have hsettled := h.settled (by rw [hturn]; exact fun _ _ hno => nomatch hno)
    exact ⟨fun _ => hsettled, .inl hwaiting⟩
  | ok data =>
    dsimp only
    split
    · refine ⟨fun _ heof => ?_, .inl hwaiting⟩
      have hfields := @Blob.promoteIfComplete_fields s.blob
      exact Blob.promoteIfComplete_cached (hfields.1.symm.trans heof)
    · exact ⟨(fun _ _ hno => nomatch hno), .inl hwaiting⟩
    · exact ⟨(fun _ _ hno => nomatch hno), .inl hwaiting⟩

theorem alone_delivered (h : s.Alone) (hc : c ∈ s.awaiting) (failure : Option String) :
    (s.delivered content c failure).Alone := by
  have hwaiting : s.waiting = [] := by
    rcases h.single with hnil | ⟨c', -, -, hawaiting, -⟩
    · exact hnil
    · rw [hawaiting] at hc
      exact absurd hc List.not_mem_nil
  unfold Scope.delivered
  cases failure with
  | some err => exact ⟨h.settled, .inl hwaiting⟩
  | none => exact ⟨(fun _ _ hno => nomatch hno), .inl hwaiting⟩

theorem alone_segment (h : s.Alone) {handle : Option Nat} {h' : Nat} {emitted : List Bytes}
    (hturn : s.running = .pulling c handle emitted) (reply : SegmentReply) :
    (s.segment c h' emitted reply).Alone := by
  have hwaiting := h.waiting_nil (by rw [hturn]; exact fun hno => nomatch hno)
  have hsettled := h.settled (by rw [hturn]; exact fun _ _ hno => nomatch hno)
  unfold Scope.segment
  split
  · exact ⟨fun _ => hsettled, .inl hwaiting⟩
  · dsimp only
    split <;> exact ⟨fun _ => hsettled, .inl hwaiting⟩

theorem Alone.step (h : s.Alone) {e : Event} (hok : s.Resumable e)
    (hstep : s.step content chunkSize e = some s') : s'.Alone := by
  cases e with
  | call call inlined stored =>
    unfold Scope.step at hstep
    dsimp only at hstep
    split at hstep
    · cases hstep
    · obtain rfl := Option.some.inj hstep
      have hidle := hok.1.idle
      have hsettled := h.settled (by rw [hidle]; exact fun _ _ hno => nomatch hno)
      have hrest : ({ s with started := s.started + 1 } : Scope).AtRest := hok.1
      apply alone_start _ hrest
      exact hsettled
  | begin =>
    unfold Scope.step at hstep
    dsimp only at hstep
    split at hstep
    · rename_i c waiting hrunning hwaiting
      obtain rfl := Option.some.inj hstep
      have hsettled := h.settled (by rw [hrunning]; exact fun _ _ hno => nomatch hno)
      have hlast : waiting = [] := by
        rcases h.single with hnil | ⟨c', hone, -⟩
        · rw [hwaiting] at hnil
          cases hnil
        · rw [hwaiting] at hone
          exact (List.cons.inj hone).2
      exact alone_enter hsettled hlast
    · cases hstep
  | opened refusal =>
    unfold Scope.step at hstep
    dsimp only at hstep
    split at hstep
    · rename_i c cursor hrunning
      obtain rfl := Option.some.inj hstep
      exact alone_opened h hrunning refusal
    · rename_i c emitted hrunning
      have hwaiting := h.waiting_nil (by rw [hrunning]; exact fun hno => nomatch hno)
      have hsettled := h.settled (by rw [hrunning]; exact fun _ _ hno => nomatch hno)
      split at hstep <;> obtain rfl := Option.some.inj hstep <;>
        exact ⟨fun _ => hsettled, .inl hwaiting⟩
    · cases hstep
  | window replies =>
    unfold Scope.step at hstep
    dsimp only at hstep
    split at hstep
    · rename_i c hrunning
      split at hstep
      · obtain ⟨cursors, -, rfl⟩ := Option.map_eq_some_iff.mp hstep
        have hmoved : ({ s with cursors := cursors } : Scope).Alone := ⟨h.settled, h.single⟩
        exact alone_window hmoved hrunning replies
      · cases hstep
    · cases hstep
  | whole replies =>
    unfold Scope.step at hstep
    dsimp only at hstep
    split at hstep
    · rename_i c handle hrunning
      obtain ⟨outcome, -, hstep⟩ := Option.bind_eq_some_iff.mp hstep
      obtain ⟨cursors, -, rfl⟩ := Option.map_eq_some_iff.mp hstep
      have hwaiting := h.waiting_nil (by rw [hrunning]; exact fun hno => nomatch hno)
      have hsettled := h.settled (by rw [hrunning]; exact fun _ _ hno => nomatch hno)
      exact ⟨fun _ => hsettled, .inl hwaiting⟩
    · cases hstep
  | resume =>
    unfold Scope.step at hstep
    dsimp only at hstep
    split at hstep
    · rename_i c outcome hrunning
      obtain rfl := Option.some.inj hstep
      exact alone_resume h hrunning
    · cases hstep
  | delivered c failure =>
    unfold Scope.step at hstep
    dsimp only at hstep
    split at hstep
    · rename_i hmem
      obtain rfl := Option.some.inj hstep
      exact alone_delivered h hmem failure
    · cases hstep
  | segment reply =>
    unfold Scope.step at hstep
    dsimp only at hstep
    split at hstep
    · rename_i c handle emitted hrunning
      obtain ⟨cursors, -, rfl⟩ := Option.map_eq_some_iff.mp hstep
      have hmoved : ({ s with cursors := cursors } : Scope).Alone := ⟨h.settled, h.single⟩
      exact alone_segment hmoved hrunning reply
    · cases hstep
  | destroyed =>
    unfold Scope.step at hstep
    dsimp only at hstep
    split at hstep
    · rename_i c handle emitted hrunning
      obtain rfl := Option.some.inj hstep
      have hwaiting := h.waiting_nil (by rw [hrunning]; exact fun hno => nomatch hno)
      have hsettled := h.settled (by rw [hrunning]; exact fun _ _ hno => nomatch hno)
      exact ⟨fun _ => hsettled, .inl hwaiting⟩
    · cases hstep

/-- A section never finds a spent cursor: its call would have found the cache. -/
theorem Alone.orderly (h : s.Alone) {e : Event} (hok : s.Resumable e) : s.Orderly e := by
  cases e with
  | call call inlined stored =>
    cases call with
    | close => exact hok.1
    | stream => exact hok.2 rfl
    | head n => trivial
    | buffer => trivial
    | text => trivial
    | prefetch => trivial
  | begin =>
    intro c hhead hp
    refine ⟨hok c hhead hp, ?_⟩
    intro _ heof
    rcases h.single with hnil | ⟨c', -, hidle, -, hcached⟩
    · rw [hnil] at hhead
      cases hhead
    · exact absurd hcached (h.settled (by rw [hidle]; exact fun _ _ hno => nomatch hno) heof)
  | opened refusal => trivial
  | window replies => trivial
  | whole replies => trivial
  | resume => trivial
  | delivered c failure => trivial
  | segment reply => trivial
  | destroyed => trivial

theorem reachable_alone (h : (machine content chunkSize).Reachable Resumable s) :
    s.Alone ∧ (machine content chunkSize).Reachable Orderly s := by
  induction h with
  | init h =>
    refine ⟨?_, .init h⟩
    have hnew : _ = ({} : Scope) := h
    rw [hnew]
    exact ⟨(fun _ hno => nomatch hno), .inl rfl⟩
  | step _ hok hs ih => exact ⟨ih.1.step hok hs, ih.2.step (ih.1.orderly hok) hs⟩

/-- Whatever the server has refused before, a call that succeeds returns what the blob has. -/
theorem reads_without_hole (content : Bytes) (chunkSize : Nat) {s : Scope}
    (h : (machine content chunkSize).Reachable Resumable s) {c : Pending} {data : Bytes}
    (hc : (c, .ok data) ∈ s.results) : data = c.call.expected content := by
  have horderly := (reachable_alone h).2
  exact (reachable_sound horderly).results c data hc

/-- An open is refused, two bytes are read, and then the rest. -/
theorem reads_without_hole_refused :
    ∃ s : Scope, s.results.map Prod.snd =
        [.error "lock conflict", .ok [65, 66], .ok [65, 66, 67]] ∧
      ∀ c data, (c, .ok data) ∈ s.results → data = c.call.expected [65, 66, 67] := by
  have h₀ : (machine [65, 66, 67] 1).Reachable Resumable {} := .init rfl
  have h₁ := h₀.step (e := Event.call (.head 2) false false)
    ⟨⟨trivial, rfl, rfl⟩, (fun hno => nomatch hno)⟩ rfl
  have h₂ := h₁.step (e := Event.begin) (fun _ _ _ _ hno => nomatch hno) rfl
  have h₃ := h₂.step (e := Event.opened (some "lock conflict")) trivial rfl
  have h₄ := h₃.step (e := Event.resume) trivial rfl
  have h₅ := h₄.step (e := Event.call (.head 2) false false)
    ⟨⟨trivial, rfl, rfl⟩, (fun hno => nomatch hno)⟩ rfl
  have h₆ := h₅.step (e := Event.begin) (fun _ _ _ _ hno => nomatch hno) rfl
  have h₇ := h₆.step (e := Event.opened none) trivial rfl
  have h₈ := h₇.step (e := Event.window [.data [65] false, .data [66] false]) trivial rfl
  have h₉ := h₈.step (e := Event.resume) trivial rfl
  have h₁₀ := h₉.step (e := Event.call .buffer false false)
    ⟨⟨trivial, rfl, rfl⟩, (fun hno => nomatch hno)⟩ rfl
  have hstep (handle : Nat) (h : some 0 = some handle) : ([2] : List Nat)[handle]? = some 2 := by
    obtain rfl := Option.some.inj h
    rfl
  have h₁₁ := h₁₀.step (e := Event.begin) (fun _ _ _ => hstep) rfl
  have h₁₂ := h₁₁.step (e := Event.window (lastWindow [67])) trivial rfl
  have h₁₃ := h₁₂.step (e := Event.resume) trivial rfl
  exact ⟨_, rfl, fun c data hc => reads_without_hole _ _ h₁₃ hc⟩

/-- Every call comes when no other is in progress. -/
def Sequential (s : Scope) : Event → Prop
  | .call _ _ _ => s.AtRest
  | _ => True

/-- The second segment of a window is refused, and the next call goes on behind the first. -/
theorem failed_window_loses_bytes :
    ¬ ∀ s : Scope, (machine [65, 66, 67] 1).Reachable Sequential s →
      ∀ c data, (c, .ok data) ∈ s.results → data = c.call.expected [65, 66, 67] := by
  intro hall
  have h₀ : (machine [65, 66, 67] 1).Reachable Sequential {} := .init rfl
  have h₁ := h₀.step (e := Event.call (.head 2) false false) ⟨trivial, rfl, rfl⟩ rfl
  have h₂ := h₁.step (e := Event.begin) trivial rfl
  have h₃ := h₂.step (e := Event.opened none) trivial rfl
  have h₄ := h₃.step (e := Event.window [.data [65] false, .refused "lock conflict"]) trivial rfl
  have h₅ := h₄.step (e := Event.resume) trivial rfl
  have h₆ := h₅.step (e := Event.call .buffer false false) ⟨trivial, rfl, rfl⟩ rfl
  have h₇ := h₆.step (e := Event.begin) trivial rfl
  have h₈ := h₇.step (e := Event.window (lastWindow [66, 67])) trivial rfl
  have h₉ := h₈.step (e := Event.resume) trivial rfl
  have hhole := hall _ h₉ ⟨1, .buffer⟩ [66, 67] (List.mem_cons_of_mem _ List.mem_cons_self)
  exact absurd hhole (by decide)

end FastFirebird.LazyBlob.Scope
