import FastFirebird.Uploads
import FastFirebird.Discipline

/-! What an upload says to the server, whatever the responses are: its content in segments and one
close, with every response it is owed consumed in the end. -/
namespace FastFirebird

namespace Upload

/-- What holds of a program that sends blob requests only, with at most a window of them
unanswered. -/
abbrev Meets {α : Type} (t : Program α) (Q : α → Account Request → Prop)
    (E : FirebirdError → Account Request → Prop) (s : Account Request) : Prop :=
  t.Holds (fun req => req.isBlobOp = true) pipelineDepth Q E s

def segmentRequest (blob : Nat) (seg : Bytes) : Request := .batchSegments blob (frame seg)

/-- `n` responses are owed, and there is room for another. -/
structure Sending (n : Nat) (s : Account Request) : Prop where
  owed : s.owed = n
  room : n < pipelineDepth
  undeferred : s.deferred = false

/-- Behind what was sent before: the segments, and one close. Nothing is owed. -/
structure Closed (blob : Nat) (before : List Request) (segs : List Bytes) (s : Account Request) :
    Prop where
  sent : s.sent = before ++ segs.map (segmentRequest blob) ++ [.closeBlob blob]
  owed : s.owed = 0

variable {E : FirebirdError → Account Request → Prop} {s : Account Request}

theorem drainResponses_meets : ∀ {n : Nat} {s : Account Request}, s.owed = n → s.flushed = n →
    s.deferred = false →
    Meets (drainResponses n) (fun _ s' => s'.sent = s.sent ∧ s'.owed = 0 ∧ s'.deferred = false) E s
  | 0, _, howed, _, hopen => ⟨rfl, howed, hopen⟩
  | n + 1, s, howed, hflushed, hopen => by
    refine Talk.holds_bind.mpr ⟨hopen, by omega, fun _ => ?_⟩
    have howed' : s.owed - 1 = n := by omega
    have hflushed' : s.flushed - 1 = n := by omega
    exact @drainResponses_meets n { s with owed := s.owed - 1, flushed := s.flushed - 1 } howed'
      hflushed' hopen

theorem sendSegment_meets {blob n : Nat} {chunk : Bytes} (h : Sending n s) :
    Meets (sendSegment blob n chunk)
      (fun r s' => Sending r.2 s' ∧ s'.sent = s.sent ++ [segmentRequest blob chunk] ∧
        ∀ e, r.1 = .error e → s'.flushed = s'.owed) E s := by
  obtain ⟨howed, hroom, hopen⟩ := h
  refine Talk.holds_bind.mpr ⟨rfl, hopen, by omega, ?_⟩
  split
  · refine Talk.holds_bind.mpr ⟨hopen, ?_⟩
    refine Talk.holds_bind.mpr ⟨hopen, Nat.succ_pos _, fun r => ?_⟩
    cases r with
    | ok _ => exact ⟨⟨howed, hroom, hopen⟩, rfl, fun e he => by cases he⟩
    | error e => exact ⟨⟨howed, hroom, hopen⟩, rfl, fun _ _ => rfl⟩
  · rename_i hfull
    refine ⟨⟨?_, by dsimp only; omega, hopen⟩, rfl, fun e he => by cases he⟩
    exact congrArg (· + 1) howed

/-- What comes first when an upload fails leaves nothing in the buffer. -/
def Recovers (recover : Program Unit) (s : Account Request) : Prop :=
  ∀ E, Meets recover (fun _ s' => s' = { s with flushed := s.owed }) E s

theorem recovers_pure (h : s.flushed = s.owed) : Recovers (pure ()) s := by
  intro E
  obtain ⟨sent, owed, flushed, deferred⟩ := s
  obtain rfl : flushed = owed := h
  rfl

theorem recovers_flush (h : s.deferred = false) : Recovers flush s := fun _ => ⟨h, rfl⟩

theorem abandonUpload_meets {recover : Program Unit} {blob n : Nat} {e : FirebirdError}
    (h : Sending n s) (hr : Recovers recover s) :
    Meets (abandonUpload recover blob n e) (fun _ _ => False)
      (fun _ s' => Closed blob s.sent [] s') s := by
  refine Talk.holds_bind.mpr ((hr _).mono ?_ fun _ _ h => h)
  rintro _ _ rfl
  have hdrain := @drainResponses_meets (fun _ s' => Closed blob s.sent [] s') n
    { s with flushed := s.owed } h.owed h.owed h.undeferred
  refine Talk.holds_bind.mpr (hdrain.mono ?_ fun _ _ h => h)
  rintro _ s₁ ⟨hsent, howed, hopen⟩
  refine ⟨rfl, hopen, howed, ?_, howed⟩
  rw [hsent]
  simp

theorem readAllResponses_meets {recover : Program Unit}
    (hr : ∀ s : Account Request, s.flushed = s.owed → s.deferred = false → Recovers recover s) :
    ∀ {n : Nat} {s : Account Request}, s.owed = n → s.flushed = n → s.deferred = false →
      Meets (readAllResponses recover n) (fun _ s' => s'.sent = s.sent ∧ s'.owed = 0)
        (fun _ s' => s'.sent = s.sent ∧ s'.owed = 0) s
  | 0, _, howed, _, _ => ⟨rfl, howed⟩
  | n + 1, s, howed, hflushed, hopen => by
    refine Talk.holds_bind.mpr ⟨hopen, by omega, fun r => ?_⟩
    have howed' : s.owed - 1 = n := by omega
    have hflushed' : s.flushed - 1 = n := by omega
    cases r with
    | ok _ =>
      exact @readAllResponses_meets recover hr n
        { s with owed := s.owed - 1, flushed := s.flushed - 1 } howed' hflushed' hopen
    | error e =>
      have hrecover := hr { s with owed := s.owed - 1, flushed := s.flushed - 1 }
        (hflushed'.trans howed'.symm) hopen
      refine Talk.holds_bind.mpr ((hrecover _).mono ?_ fun _ _ h => h)
      rintro _ _ rfl
      have hdrain := @drainResponses_meets (fun _ s' => s'.sent = s.sent ∧ s'.owed = 0) n
        { s with owed := s.owed - 1, flushed := s.owed - 1 } howed' howed' hopen
      refine Talk.holds_bind.mpr (hdrain.mono ?_ fun _ _ h => h)
      exact fun _ s₁ h => ⟨h.1, h.2.1⟩

theorem finishUpload_meets {recover : Program Unit} {blob n : Nat} (h : Sending n s)
    (hr : ∀ s : Account Request, s.flushed = s.owed → s.deferred = false → Recovers recover s) :
    Meets (finishUpload recover blob n) (fun _ s' => Closed blob s.sent [] s')
      (fun _ s' => Closed blob s.sent [] s') s := by
  obtain ⟨howed, hroom, hopen⟩ := h
  refine Talk.holds_bind.mpr ⟨rfl, hopen, by omega, ?_⟩
  refine Talk.holds_bind.mpr ⟨hopen, ?_⟩
  have hnext : s.owed + 1 = n + 1 := congrArg (· + 1) howed
  have hread := @readAllResponses_meets recover hr (n + 1)
    { s with sent := s.sent ++ [.closeBlob blob], owed := s.owed + 1, flushed := s.owed + 1 }
    hnext hnext hopen
  refine hread.mono ?_ ?_
  · rintro _ s₁ ⟨hsent, howed⟩
    exact ⟨by rw [hsent]; simp, howed⟩
  · rintro _ s₁ ⟨hsent, howed⟩
    exact ⟨by rw [hsent]; simp, howed⟩

/-- A close behind one more segment. -/
theorem Closed.cons {blob : Nat} {before : List Request} {seg : Bytes} {segs : List Bytes}
    (h : Closed blob (before ++ [segmentRequest blob seg]) segs s) :
    Closed blob before (seg :: segs) s := by
  refine ⟨?_, h.owed⟩
  rw [h.sent]
  simp

theorem Closed.append {blob : Nat} {before : List Request} {segs more : List Bytes}
    (h : Closed blob (before ++ segs.map (segmentRequest blob)) more s) :
    Closed blob before (segs ++ more) s := by
  refine ⟨?_, h.owed⟩
  rw [h.sent]
  simp

theorem writeSegments_meets (blob : Nat) (segs : List Bytes) : ∀ {n : Nat} {s : Account Request},
    Sending n s →
    Meets (writeSegments blob segs n) (fun _ s' => Closed blob s.sent segs s')
      (fun _ s' => ∃ segs', segs' <+: segs ∧ Closed blob s.sent segs' s') s := by
  induction segs with
  | nil =>
    intro n s h
    refine (finishUpload_meets h fun _ hflushed _ => recovers_pure hflushed).mono ?_ ?_
    · exact fun _ _ h => h
    · exact fun _ _ h => ⟨[], List.prefix_refl [], h⟩
  | cons seg segs ih =>
    intro n s h
    refine Talk.holds_bind.mpr ((sendSegment_meets h).mono ?_ fun _ _ h => h)
    rintro ⟨r, m⟩ s₁ ⟨hsending, hsent, hflushed⟩
    cases r with
    | ok _ =>
      refine (ih hsending).mono ?_ ?_
      · intro _ s₂ hclosed
        rw [hsent] at hclosed
        exact hclosed.cons
      · rintro _ s₂ ⟨segs', hpre, hclosed⟩
        rw [hsent] at hclosed
        exact ⟨seg :: segs', List.cons_prefix_cons.mpr ⟨rfl, hpre⟩, hclosed.cons⟩
    | error e =>
      refine (abandonUpload_meets hsending (recovers_pure (hflushed e rfl))).mono ?_ ?_
      · exact fun _ _ h => h.elim
      · intro _ s₂ hclosed
        rw [hsent] at hclosed
        exact ⟨[seg], by simp, hclosed.cons⟩

/-! The segments of a content -/

theorem sliceSegments_flatten (segSize : Nat) : ∀ (fuel : Nat) (data : Bytes),
    (sliceSegments segSize fuel data).flatten = data
  | 0, data => by simp [sliceSegments]
  | fuel + 1, data => by
    rw [sliceSegments]
    split
    · simp
    · rw [List.flatten_cons, sliceSegments_flatten segSize fuel, List.take_append_drop]

theorem sliceSegments_length {segSize : Nat} (hpos : 0 < segSize) : ∀ {fuel : Nat} {data : Bytes},
    data.length ≤ fuel → ∀ seg ∈ sliceSegments segSize fuel data, seg.length ≤ segSize
  | 0, data, hlen, seg, hseg => by
    obtain rfl := List.mem_singleton.mp hseg
    omega
  | fuel + 1, data, hlen, seg, hseg => by
    rw [sliceSegments] at hseg
    split at hseg
    · rename_i hfits
      obtain rfl := List.mem_singleton.mp hseg
      exact hfits
    · rcases List.mem_cons.mp hseg with rfl | hseg
      · rw [List.length_take]
        exact Nat.min_le_left _ _
      · have hshort : (data.drop segSize).length ≤ fuel := by
          rw [List.length_drop]
          omega
        exact sliceSegments_length hpos hshort seg hseg

theorem segmentSize_pos (chunkSize : Nat) : 0 < segmentSize chunkSize := by
  unfold segmentSize maxSegmentSize
  omega

/-- `seg` and `segs` are pieces of the right size. -/
def Fit (segSize : Nat) (segs : List Bytes) : Prop := ∀ seg ∈ segs, seg.length ≤ segSize

theorem sendFull_meets (blob : Nat) {segSize : Nat} (hpos : 0 < segSize) : ∀ {fuel n : Nat}
    {pending : Bytes} {s : Account Request}, pending.length ≤ fuel → Sending n s →
    Meets (sendFull blob segSize fuel n pending)
      (fun r s' => Sending r.2 s' ∧ ∃ segs, s'.sent = s.sent ++ segs.map (segmentRequest blob) ∧
        Fit segSize segs ∧ (∀ rest, r.1 = .ok rest →
          segs.flatten ++ rest = pending ∧ rest.length < segSize) ∧
        ∀ e, r.1 = .error e → segs.flatten <+: pending) E s := by
  intro fuel
  induction fuel with
  | zero =>
    intro n pending s hlen h
    refine ⟨h, [], by simp, fun _ hseg => absurd hseg List.not_mem_nil, ?_, fun e he => by cases he⟩
    intro rest hrest
    obtain rfl := Except.ok.inj hrest
    exact ⟨rfl, by omega⟩
  | succ fuel ih =>
    intro n pending s hlen h
    rw [sendFull]
    split
    · rename_i hfull
      refine Talk.holds_bind.mpr ((sendSegment_meets h).mono ?_ fun _ _ h => h)
      rintro ⟨r, m⟩ s₁ ⟨hsending, hsent, -⟩
      have hfits : (pending.take segSize).length ≤ segSize := by
        rw [List.length_take]
        exact Nat.min_le_left _ _
      cases r with
      | error e =>
        refine ⟨hsending, [pending.take segSize], hsent, ?_, (fun rest hrest => by cases hrest), ?_⟩
        · intro seg hseg
          obtain rfl := List.mem_singleton.mp hseg
          exact hfits
        · intro _ _
          simpa using List.take_prefix segSize pending
      | ok _ =>
        have hshort : (pending.drop segSize).length ≤ fuel := by
          rw [List.length_drop]
          omega
        refine (ih hshort hsending).mono ?_ fun _ _ h => h
        rintro ⟨r, m⟩ s₂ ⟨hsending, segs, hsent₂, hfit, hrest, herror⟩
        refine ⟨hsending, pending.take segSize :: segs, ?_, ?_, ?_, ?_⟩
        · rw [hsent₂, hsent]
          simp
        · intro seg hseg
          rcases List.mem_cons.mp hseg with rfl | hseg
          · exact hfits
          · exact hfit seg hseg
        · intro rest hr
          obtain ⟨hflat, hsmall⟩ := hrest rest hr
          refine ⟨?_, hsmall⟩
          rw [List.flatten_cons, List.append_assoc, hflat, List.take_append_drop]
        · intro e he
          have hpre := herror e he
          rw [List.flatten_cons]
          calc pending.take segSize ++ segs.flatten
              <+: pending.take segSize ++ pending.drop segSize :=
                (List.prefix_append_right_inj _).mpr hpre
            _ = pending := List.take_append_drop segSize pending
    · rename_i hsmall
      refine ⟨h, [], by simp, fun _ hseg => absurd hseg List.not_mem_nil, ?_, fun e he => by cases he⟩
      intro rest hrest
      obtain rfl := Except.ok.inj hrest
      exact ⟨rfl, by omega⟩

/-- Of `bytes`, in segments of the right size, and closed. -/
def Uploaded (blob segSize : Nat) (before : List Request) (bytes : Bytes) (s : Account Request) :
    Prop :=
  ∃ segs, Closed blob before segs s ∧ Fit segSize segs ∧ segs.flatten = bytes

/-- As far as the upload has come. -/
def CutShort (blob segSize : Nat) (before : List Request) (bytes : Bytes) (s : Account Request) :
    Prop :=
  ∃ sent, sent <+: bytes ∧ Uploaded blob segSize before sent s

theorem Uploaded.behind {blob segSize : Nat} {before : List Request} {segs : List Bytes}
    {bytes : Bytes} (h : Uploaded blob segSize (before ++ segs.map (segmentRequest blob)) bytes s)
    (hfit : Fit segSize segs) : Uploaded blob segSize before (segs.flatten ++ bytes) s := by
  obtain ⟨more, hclosed, hmore, rfl⟩ := h
  refine ⟨segs ++ more, hclosed.append, ?_, List.flatten_append⟩
  intro seg hseg
  rcases List.mem_append.mp hseg with hseg | hseg
  · exact hfit seg hseg
  · exact hmore seg hseg

theorem CutShort.behind {blob segSize : Nat} {before : List Request} {segs : List Bytes}
    {bytes : Bytes} (h : CutShort blob segSize (before ++ segs.map (segmentRequest blob)) bytes s)
    (hfit : Fit segSize segs) : CutShort blob segSize before (segs.flatten ++ bytes) s := by
  obtain ⟨sent, hpre, hsent⟩ := h
  exact ⟨segs.flatten ++ sent, (List.prefix_append_right_inj _).mpr hpre, hsent.behind hfit⟩

theorem uploaded_nil {blob segSize : Nat} {before : List Request} (h : Closed blob before [] s) :
    Uploaded blob segSize before [] s :=
  ⟨[], h, fun _ hseg => absurd hseg List.not_mem_nil, rfl⟩

theorem cutShort_nil {blob segSize : Nat} {before : List Request} (bytes : Bytes)
    (h : Closed blob before [] s) : CutShort blob segSize before bytes s :=
  ⟨[], List.nil_prefix, uploaded_nil h⟩

/-- The bytes of a source until it ends or fails, and whether it fails. -/
def sourceBytes (encodeText : String → Except FirebirdError Bytes) :
    List (Except FirebirdError Chunk) → Bytes × Bool
  | [] => ([], false)
  | chunk :: chunks =>
    match chunk >>= chunkBytes encodeText with
    | .error _ => ([], true)
    | .ok bytes => (bytes ++ (sourceBytes encodeText chunks).1, (sourceBytes encodeText chunks).2)

theorem writeChunks_meets (encodeText : String → Except FirebirdError Bytes) (blob : Nat)
    {segSize : Nat} (hpos : 0 < segSize) (chunks : List (Except FirebirdError Chunk)) :
    ∀ {n : Nat} {pending : Bytes} {s : Account Request}, Sending n s → pending.length < segSize →
    Meets (writeChunks encodeText blob segSize chunks n pending)
      (fun _ s' => (sourceBytes encodeText chunks).2 = false ∧
        Uploaded blob segSize s.sent (pending ++ (sourceBytes encodeText chunks).1) s')
      (fun _ s' => CutShort blob segSize s.sent (pending ++ (sourceBytes encodeText chunks).1) s')
      s := by
  have hflush : ∀ s : Account Request, s.flushed = s.owed → s.deferred = false →
      Recovers flush s := fun _ _ hopen => recovers_flush hopen
  induction chunks with
  | nil =>
    intro n pending s h hsmall
    rw [writeChunks]
    refine Talk.holds_bind.mpr ⟨h.undeferred, ?_⟩
    simp only [sourceBytes, List.append_nil]
    split
    · rename_i hempty
      obtain rfl : pending = [] := List.isEmpty_iff.mp hempty
      refine (finishUpload_meets h hflush).mono ?_ ?_
      · exact fun _ _ hclosed => ⟨trivial, uploaded_nil hclosed⟩
      · exact fun _ _ hclosed => cutShort_nil [] hclosed
    · have hfit : Fit segSize [pending] := by
        intro seg hseg
        obtain rfl := List.mem_singleton.mp hseg
        omega
      have hone : [pending].flatten = pending := by simp
      refine Talk.holds_bind.mpr ((sendSegment_meets h).mono ?_ fun _ _ h => h)
      rintro ⟨r, m⟩ s₁ ⟨hsending, hsent, -⟩
      cases r with
      | ok _ =>
        refine (finishUpload_meets hsending hflush).mono ?_ ?_
        · intro _ s₂ hclosed
          rw [hsent] at hclosed
          exact ⟨trivial, [pending], hclosed.cons, hfit, hone⟩
        · intro _ s₂ hclosed
          rw [hsent] at hclosed
          exact ⟨pending, List.prefix_refl _, [pending], hclosed.cons, hfit, hone⟩
      | error e =>
        refine (abandonUpload_meets hsending (recovers_flush hsending.undeferred)).mono ?_ ?_
        · exact fun _ _ h => h.elim
        · intro _ s₂ hclosed
          rw [hsent] at hclosed
          exact ⟨pending, List.prefix_refl _, [pending], hclosed.cons, hfit, hone⟩
  | cons chunk chunks ih =>
    intro n pending s h hsmall
    rw [writeChunks]
    refine Talk.holds_bind.mpr ⟨h.undeferred, ?_⟩
    simp only [sourceBytes]
    cases chunk >>= chunkBytes encodeText with
    | error e =>
      refine (abandonUpload_meets h (recovers_flush h.undeferred)).mono ?_ ?_
      · exact fun _ _ h => h.elim
      · exact fun _ _ hclosed => cutShort_nil _ hclosed
    | ok bytes =>
      dsimp only
      refine Talk.holds_bind.mpr ((sendFull_meets blob hpos (Nat.le_refl _) h).mono ?_ fun _ _ h => h)
      rintro ⟨r, m⟩ s₁ ⟨hsending, segs, hsent, hfit, hrest, herror⟩
      cases r with
      | ok rest =>
        obtain ⟨hflat, hshort⟩ := hrest rest rfl
        have hwhole : segs.flatten ++ (rest ++ (sourceBytes encodeText chunks).1) =
            pending ++ (bytes ++ (sourceBytes encodeText chunks).1) := by
          rw [← List.append_assoc, hflat, List.append_assoc]
        refine (ih hsending hshort).mono ?_ ?_
        · rintro _ s₂ ⟨hended, huploaded⟩
          rw [hsent] at huploaded
          rw [← hwhole]
          exact ⟨hended, huploaded.behind hfit⟩
        · intro _ s₂ hcut
          rw [hsent] at hcut
          rw [← hwhole]
          exact hcut.behind hfit
      | error e =>
        have hpre : segs.flatten <+: pending ++ (bytes ++ (sourceBytes encodeText chunks).1) := by
          rw [← List.append_assoc]
          exact (herror e rfl).trans (List.prefix_append _ _)
        refine (abandonUpload_meets hsending (recovers_flush hsending.undeferred)).mono ?_ ?_
        · exact fun _ _ h => h.elim
        · intro _ s₂ hclosed
          rw [hsent] at hclosed
          have hsegs := hclosed.append
          rw [List.append_nil] at hsegs
          exact ⟨segs.flatten, hpre, segs, hsegs, hfit, rfl⟩

theorem writeSegments_uploads (blob chunkSize : Nat) (data : Bytes) (h : Sending 0 s) :
    Meets (writeSegments blob (sliceSegments (segmentSize chunkSize) data.length data) 0)
      (fun _ s' => Uploaded blob (segmentSize chunkSize) s.sent data s')
      (fun _ s' => CutShort blob (segmentSize chunkSize) s.sent data s') s := by
  have hfit := @sliceSegments_length _ (segmentSize_pos chunkSize) data.length data (Nat.le_refl _)
  have hflat := sliceSegments_flatten (segmentSize chunkSize) data.length data
  refine (writeSegments_meets blob _ h).mono ?_ ?_
  · exact fun _ s' hclosed => ⟨_, hclosed, hfit, hflat⟩
  · rintro _ s' ⟨segs, hpre, hclosed⟩
    refine ⟨segs.flatten, ?_, segs, hclosed, fun seg hseg => hfit seg (hpre.subset hseg), rfl⟩
    obtain ⟨more, hmore⟩ := hpre
    rw [← hflat, ← hmore, List.flatten_append]
    exact List.prefix_append _ _

end Upload

end FastFirebird
