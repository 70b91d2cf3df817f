import FastFirebird.Pipelines
import FastFirebird.UploadWire

/-! When an upload is faithful: what it sends, what it awaits and what it leaves behind. -/
namespace FastFirebird

variable {link : Link}

theorem Talk.run_extends {α : Type} (t : Talk Request Reply FirebirdError α) :
    Async.Along Extends (t.run link) := by
  induction t with
  | done a => exact .pure a
  | fail e => exact .throw e
  | write req next ih =>
    have hsend : Async.Along Extends (send link req) := fun c => List.suffix_cons _ c.log
    exact hsend.bind fun _ => ih
  | defer req next ih =>
    have hsend : Async.Along Extends (FastFirebird.sendDeferred link req) :=
      .update fun c => (List.suffix_cons _ c.log).trans (List.suffix_cons _ _)
    exact hsend.bind fun _ => ih
  | flush next ih =>
    have hflush : Async.Along Extends FastFirebird.flush := fun c =>
      (congrArg (c.log <:+ ·) (Conn.flush_log c)).mpr (List.suffix_refl c.log)
    exact hflush.bind fun _ => ih
  | pause next ih =>
    have hawait : Async.Along Extends (modify (Conn.await link) : M PUnit) := along_await
    exact hawait.bind fun _ => ih
  | read next ih => exact (Async.Along.attempt along_readResponse).bind fun r => ih r

namespace Upload

/-- Between two operations: what is outstanding are the deferred responses. -/
structure Idle (c : Conn) : Prop where
  bodies : ∀ p ∈ c.inbound ++ c.unflushed, p.Volunteered ∨ p.isResponse = true
  count : replies (c.inbound ++ c.unflushed) = c.deferredResponses
  marked : ∀ p ∈ c.inbound ++ c.unflushed, p.isResponse → .marked p.request ∈ c.log
  fifo : Fifo c.log

def Refuses (p : Packet) : Prop := ∃ e, p.body = .response (.error e)

/-- None of the deferred responses is an error. -/
def NoneRefused (c : Conn) : Prop := ∀ p ∈ c.inbound ++ c.unflushed, ¬ Refuses p

/-- `x` uploads `bytes`, in segments of at most `segSize`, unless its source `fails`; `t` is what it
says to the server. In every history that is as `K` says. -/
structure Holds (link : Link) (K : List Event → Prop) (x : M Bytes) (t : Program Bytes)
    (tx segSize : Nat) (bytes : Bytes) (fails : Bool) (c : Conn) : Prop where
  run : t.run link = x
  /-- No more than a window is outstanding, and nothing is awaited before its flush. -/
  always : t.Always link (Windowed K) (Flushed K) c
  /-- The upload ends, and has consumed every response but the deferred ones. -/
  settles : ∀ o c', x c = (o, c') → K c'.log → o.settled = true ∧
    replies (c'.inbound ++ c'.unflushed) = c'.deferredResponses
  complete : ∀ id c', x c = (.ok id, c') → K c'.log → fails = false ∧
    ∃ created, link.server.reply (.createBlob tx) c.requests = .ok created ∧ id = created.oid ∧
      ∃ segs, blobRequests c c' = .createBlob tx ::
          segs.map (segmentRequest created.handle) ++ [.closeBlob created.handle] ∧
        Fit segSize segs ∧ segs.flatten = bytes
  /-- The blob, if there is one, is closed once. -/
  abandoned : ∀ e c', x c = (.error e, c') → K c'.log →
    match link.server.reply (.createBlob tx) c.requests with
    | .error _ => blobRequests c c' = [.createBlob tx]
    | .ok created => ∃ segs, blobRequests c c' = .createBlob tx ::
          segs.map (segmentRequest created.handle) ++ [.closeBlob created.handle] ∧
        Fit segSize segs ∧ segs.flatten <+: bytes

/-! Nothing refused -/

theorem drainable_idle {ps : List Packet} (hbodies : ∀ p ∈ ps, p.Volunteered ∨ p.isResponse = true)
    (hnone : ∀ p ∈ ps, ¬ Refuses p) : drainable (replies ps) ps = true := by
  induction ps with
  | nil => rfl
  | cons p ps ih =>
    have hrest := ih (fun q hq => hbodies q (List.mem_cons_of_mem _ hq))
      fun q hq => hnone q (List.mem_cons_of_mem _ hq)
    rcases hp : p.body with v | r | _ | _ | _ | _ | _
    · have hcount : replies (p :: ps) = replies ps :=
        List.countP_cons_of_neg (by simp [Packet.isResponse, hp])
      rw [hcount, drainable, hp]
      exact hrest
    · have hcount : replies (p :: ps) = replies ps + 1 :=
        List.countP_cons_of_pos (by simp [Packet.isResponse, hp])
      cases r with
      | error e => exact absurd ⟨e, hp⟩ (hnone p List.mem_cons_self)
      | ok r =>
        rw [hcount, drainable, hp]
        simpa using hrest
    all_goals
      rcases hbodies p List.mem_cons_self with ⟨v, hv⟩ | hresponse
      · rw [hp] at hv
        cases hv
      · simp [Packet.isResponse, hp] at hresponse

theorem Idle.sync {c : Conn} (h : Idle c) (hnone : NoneRefused c) : Sync [] c := by
  refine ⟨c.inbound ++ c.unflushed, (List.append_nil _).symm, ?_, h.marked, ?_, h.fifo⟩
  · rw [← h.count]
    exact drainable_idle h.bodies hnone
  · exact fun p hp => absurd hp List.not_mem_nil

variable {K : List Event → Prop} {c : Conn} {tx segSize : Nat} {bytes : Bytes} {fails : Bool}
  {upload : Nat → Program Unit}

/-- What becomes of the creation. -/
def created (upload : Nat → Program Unit) : Reply → Program Bytes
  | .error e => fail e
  | .ok r => upload r.handle >>= fun _ => pure r.oid

theorem create_eq : create tx upload =
    .write (.createBlob tx) (.flush (.read (created upload))) := by
  have hnext : created upload = fun r => match r with
      | .error e => fail e
      | .ok created => upload created.handle >>= fun _ => pure created.oid := by
    funext r
    cases r <;> rfl
  rw [hnext]
  rfl

/-- The account once the blob has been created. -/
def begun (tx : Nat) : Account Request := { sent := [.createBlob tx] }

/-- The account while the response to that is awaited. -/
def asked (tx : Nat) : Account Request := { sent := [.createBlob tx], owed := 1, flushed := 1 }

/-- The connection then. -/
def asking (link : Link) (tx : Nat) (c : Conn) : Conn := (c.send link false (.createBlob tx)).flush

theorem create_windowed (hK : History link K) (h : K c.log → Sync [] c) :
    Windowed K c ∧ Windowed K (c.send link false (.createBlob tx)) := by
  have hbegins : Underway link K c {} c := Underway.begins h
  have hsent : Underway link K c _ (c.send link false (.createBlob tx)) :=
    hbegins.send hK rfl rfl (Nat.zero_lt_succ _)
  exact ⟨hbegins.windowed, hsent.windowed⟩

theorem create_underway (hK : History link K) (h : K c.log → Sync [] c) :
    Underway link K c (asked tx) (asking link tx c) := by
  have hbegins : Underway link K c {} c := Underway.begins h
  have hsent : Underway link K c _ (c.send link false (.createBlob tx)) :=
    hbegins.send hK rfl rfl (Nat.zero_lt_succ _)
  exact hsent.flush rfl

/-- The response that is due is that to the creation. -/
theorem create_onWire (hK : History link K) (h : K c.log → Sync [] c)
    (hk : K (asking link tx c).log) : OnWire link (asked tx) (asking link tx c)
      (link.server.packets (.createBlob tx) c.requests c.turn ++ []) [] := by
  rw [asking, Conn.flush_log] at hk
  have hbase : OnWire link {} c [] [] := by
    refine ⟨rfl, rfl, h (hK.earlier _ _ hk), fun hpos => ?_, fun p hp => ?_⟩
    · exact absurd hpos (Nat.lt_irrefl 0)
    · exact absurd hp List.not_mem_nil
  have hsent : OnWire link _ (c.send link false (.createBlob tx)) _ _ :=
    hbase.send (Nat.le_refl _) rfl
  have hwire := hsent.flush (Nat.zero_le _)
  rw [List.nil_append, List.nil_append] at hwire
  rw [List.append_nil]
  exact hwire

theorem create_read (hK : History link K) (h : K c.log → Sync [] c) :
    Async.wp (readResponse link)
      ⟨fun r c₁ => Underway link K c (begun tx) c₁ ∧
          (K c₁.log → link.server.reply (.createBlob tx) c.requests = .ok r),
        fun e c₁ => Underway link K c (begun tx) c₁ ∧
          (K c₁.log → link.server.reply (.createBlob tx) c.requests = .error e),
        fun c₁ => ¬ K c₁.log⟩ (asking link tx c) := by
  have hnone : Owed link.server ((asked tx).flushed - 1) [] := rfl
  have hwire := readResponse_onWire hK rfl Nat.one_pos (Nat.le_refl _) hnone (create_onWire hK h)
  have hasked : Underway link K c (asked tx) (asking link tx c) := create_underway hK h
  have hunderway := hasked.read hK rfl Nat.one_pos
  refine Async.wp_mono (Async.wp_and hunderway hwire) ?_ ?_ ?_
  · exact fun r c₁ h' => ⟨h'.1, fun hk => (h'.2 hk).1⟩
  · exact fun e c₁ h' => ⟨h'.1, fun hk => (h'.2 hk).1⟩
  · exact fun c₁ h' => h'.1

/-- How an upload ends. -/
def Ends (link : Link) (K : List Event → Prop) (tx segSize : Nat) (bytes : Bytes) (fails : Bool)
    (c : Conn) : Async.Post Conn FirebirdError Bytes where
  ok id c' := ∃ s' r, Underway link K c s' c' ∧
    (K c'.log → link.server.reply (.createBlob tx) c.requests = .ok r) ∧ id = r.oid ∧
      fails = false ∧ Uploaded r.handle segSize [.createBlob tx] bytes s'
  error e c' := ∃ s', Underway link K c s' c' ∧ s'.owed = 0 ∧
    ((s'.sent = [.createBlob tx] ∧
        (K c'.log → link.server.reply (.createBlob tx) c.requests = .error e)) ∨
      ∃ r, (K c'.log → link.server.reply (.createBlob tx) c.requests = .ok r) ∧
        CutShort r.handle segSize [.createBlob tx] bytes s')
  pending c' := ¬ K c'.log

/-- What follows the response to the creation. -/
theorem created_ends (hK : History link K) {r : Reply} {c₁ : Conn}
    (hupload : ∀ blob s, Sending 0 s → Meets (upload blob)
      (fun _ s' => fails = false ∧ Uploaded blob segSize s.sent bytes s')
      (fun _ s' => CutShort blob segSize s.sent bytes s') s)
    (hc₁ : Underway link K c (begun tx) c₁)
    (hreply : K c₁.log → link.server.reply (.createBlob tx) c.requests = r) :
    (created upload r).Always link (Windowed K) (Flushed K) c₁ ∧
      Async.wp ((created upload r).run link) (Ends link K tx segSize bytes fails c) c₁ := by
  cases r with
  | error e => exact ⟨hc₁.windowed, begun tx, hc₁, rfl, Or.inl ⟨rfl, hreply⟩⟩
  | ok r =>
    have hmeets : Meets (created upload (.ok r))
        (fun id s' => id = r.oid ∧ fails = false ∧
          Uploaded r.handle segSize [.createBlob tx] bytes s')
        (fun _ s' => CutShort r.handle segSize [.createBlob tx] bytes s') (begun tx) := by
      apply Talk.holds_bind.mpr
      refine (hupload r.handle (begun tx) ⟨rfl, Nat.zero_lt_succ _, rfl⟩).mono ?_ ?_
      · exact fun _ s' h' => ⟨rfl, h'⟩
      · exact fun _ _ h' => h'
    have ⟨halways, hrun⟩ := hmeets.run hK hc₁
    refine ⟨halways, ?_⟩
    have halong : Async.Along Extends ((created upload (.ok r)).run link) := Talk.run_extends _
    refine Async.wp_mono (halong.with_wp hrun) ?_ ?_ ?_
    · rintro id c' ⟨hext, s', ⟨rfl, hends, huploaded⟩, hc'⟩
      exact ⟨s', r, hc', fun hk => hreply (hK.of_suffix hext hk), rfl, hends, huploaded⟩
    · rintro e c' ⟨hext, s', hcut, hc'⟩
      have howed : s'.owed = 0 := by
        obtain ⟨_, _, _, hclosed, _⟩ := hcut
        exact hclosed.owed
      exact ⟨s', hc', howed, Or.inr ⟨r, fun hk => hreply (hK.of_suffix hext hk), hcut⟩⟩
    · exact fun c' h' => h'.2

theorem create_ends (hK : History link K) (h : K c.log → Sync [] c)
    (hupload : ∀ blob s, Sending 0 s → Meets (upload blob)
      (fun _ s' => fails = false ∧ Uploaded blob segSize s.sent bytes s')
      (fun _ s' => CutShort blob segSize s.sent bytes s') s) :
    (create tx upload).Always link (Windowed K) (Flushed K) c ∧
      Async.wp ((create tx upload).run link) (Ends link K tx segSize bytes fails c) c := by
  obtain ⟨hbefore, hsent⟩ : Windowed K c ∧ Windowed K (c.send link false (.createBlob tx)) :=
    create_windowed hK h
  have hasked : Underway link K c (asked tx) (asking link tx c) := create_underway hK h
  have hread := @create_read link K c tx hK h
  have hrun : ((Talk.read (created upload)).run link : M Bytes) =
      Async.attempt (readResponse link) >>= fun r => (created upload r).run link := rfl
  have hrest : (Talk.read (created upload)).Always link (Windowed K) (Flushed K)
      (asking link tx c) ∧ Async.wp ((Talk.read (created upload)).run link)
        (Ends link K tx segSize bytes fails c) (asking link tx c) := by
    rw [hrun, Async.wp_bind, Async.wp_attempt, Talk.Always]
    have hready := hasked.ready rfl Nat.one_pos
    unfold Async.wp at hread ⊢
    rcases hr : readResponse link (asking link tx c) with ⟨r | e | _, c₁⟩
    · rw [hr] at hread
      obtain ⟨halways, hends⟩ := created_ends hK hupload hread.1 hread.2
      exact ⟨⟨hasked.windowed, hready, halways⟩, hends⟩
    · rw [hr] at hread
      obtain ⟨halways, hends⟩ := created_ends hK hupload hread.1 hread.2
      exact ⟨⟨hasked.windowed, hready, halways⟩, hends⟩
    · rw [hr] at hread
      exact ⟨⟨hasked.windowed, hready, fun hk => absurd hk hread⟩, hread⟩
  rw [create_eq]
  exact ⟨⟨hbefore, hsent, hrest.1⟩, hrest.2⟩

theorem holds_of_sync (hK : History link K) (h : K c.log → Sync [] c) {x : M Bytes}
    (hrun : (create tx upload).run link = x)
    (hupload : ∀ blob s, Sending 0 s → Meets (upload blob)
      (fun _ s' => fails = false ∧ Uploaded blob segSize s.sent bytes s')
      (fun _ s' => CutShort blob segSize s.sent bytes s') s) :
    Holds link K x (create tx upload) tx segSize bytes fails c := by
  have ⟨halways, hends⟩ := @create_ends link K c tx segSize bytes fails upload hK h hupload
  rw [hrun] at hends
  refine ⟨hrun, halways, ?_, ?_, ?_⟩
  · intro o c' hx hk
    have hend := Async.wp_eq_of_run hends hx
    rcases o with id | e | _
    · obtain ⟨s', r, hc', _, _, _, segs, hclosed, _⟩ := hend
      have hcount := hc'.replies_queue hk
      rw [hclosed.owed] at hcount
      exact ⟨rfl, hcount⟩
    · obtain ⟨s', hc', howed, _⟩ := hend
      have hcount := hc'.replies_queue hk
      rw [howed] at hcount
      exact ⟨rfl, hcount⟩
    · exact absurd hk hend
  · intro id c' hx hk
    obtain ⟨s', r, hc', hreply, hid, hended, segs, hclosed, hfit, hflat⟩ :=
      Async.wp_eq_of_run hends hx
    refine ⟨hended, r, hreply hk, hid, segs, ?_, hfit, hflat⟩
    rw [hc'.blobRequests_eq, hclosed.sent]
    rfl
  · intro e c' hx hk
    obtain ⟨s', hc', _, hcases⟩ := Async.wp_eq_of_run hends hx
    rw [hc'.blobRequests_eq]
    rcases hcases with ⟨hsent, hreply⟩ | ⟨r, hreply, sent, hpre, segs, hclosed, hfit, hflat⟩
    · rw [hreply hk]
      exact hsent
    · rw [hreply hk]
      refine ⟨segs, ?_, hfit, ?_⟩
      · rw [hclosed.sent]
        rfl
      · rw [hflat]
        exact hpre

/-! A deferred response that is an error -/

theorem receive_undisturbed (hu : link.Undisturbed) (p : Packet) (ps : List Packet) (c : Conn) :
    c.receive link p ps = { c with inbound := ps, awaits := c.awaits + 1 } := by
  rw [Conn.receive, Conn.await, hu]
  rfl

/-- The reader throws the error, and leaves what is behind it. -/
theorem readOpFrom_refused (hu : link.Undisturbed) (tail : List Packet) : ∀ {q : List Packet}
    {c : Conn}, (∀ p ∈ q, p.Volunteered ∨ p.isResponse = true) → (∃ p ∈ q, Refuses p) →
      replies q ≤ c.deferredResponses →
        ∃ e c', readOpFrom link (q ++ tail) c = (.error e, c') ∧ c'.unflushed = c.unflushed ∧
          c'.deferredResponses + replies (q ++ tail) =
            replies c'.inbound + c.deferredResponses := by
  intro q
  induction q with
  | nil => exact fun _ ⟨p, hp, _⟩ => absurd hp List.not_mem_nil
  | cons p q ih =>
    intro c hbodies hrefused hcount
    have hrest : ∀ p ∈ q, p.Volunteered ∨ p.isResponse = true :=
      fun p hp => hbodies p (List.mem_cons_of_mem _ hp)
    rw [List.cons_append, readOpFrom, receive_undisturbed hu]
    dsimp only
    rcases hbody : p.body with v | r | _ | _ | _ | _ | _
    · have hvolunteer : replies (p :: q) = replies q :=
        List.countP_cons_of_neg (by simp [Packet.isResponse, hbody])
      have hvolunteer' : replies (p :: (q ++ tail)) = replies (q ++ tail) :=
        List.countP_cons_of_neg (by simp [Packet.isResponse, hbody])
      have hlater : ∃ p ∈ q, Refuses p := by
        obtain ⟨p', hp', e, he⟩ := hrefused
        rcases List.mem_cons.mp hp' with rfl | hp'
        · rw [hbody] at he
          cases he
        · exact ⟨p', hp', e, he⟩
      rw [hvolunteer] at hcount
      rw [hvolunteer']
      cases v with
      | dummy => exact ih hrest hlater hcount
      | inlineBlob txId blobId data => exact ih hrest hlater hcount
    · have hresponse : replies (p :: q) = replies q + 1 :=
        List.countP_cons_of_pos (by simp [Packet.isResponse, hbody])
      have hresponse' : replies (p :: (q ++ tail)) = replies (q ++ tail) + 1 :=
        List.countP_cons_of_pos (by simp [Packet.isResponse, hbody])
      rw [hresponse] at hcount
      have hpos : 0 < c.deferredResponses := by omega
      rw [hresponse']
      dsimp only
      rw [if_pos hpos]
      cases r with
      | error e =>
        refine ⟨e, _, rfl, rfl, ?_⟩
        dsimp only [Conn.drainOne]
        omega
      | ok r =>
        have hlater : ∃ p ∈ q, Refuses p := by
          obtain ⟨p', hp', e, he⟩ := hrefused
          rcases List.mem_cons.mp hp' with rfl | hp'
          · rw [hbody] at he
            cases he
          · exact ⟨p', hp', e, he⟩
        have hless : replies q ≤ c.deferredResponses - 1 := by omega
        obtain ⟨e, c', hread, hunflushed, hleft⟩ := ih (c := Conn.drainOne p
          { c with inbound := q ++ tail, awaits := c.awaits + 1 }) hrest hlater hless
        refine ⟨e, c', hread, hunflushed, ?_⟩
        dsimp only [Conn.drainOne] at hleft
        omega
    all_goals
      rcases hbodies p List.mem_cons_self with ⟨v, hv⟩ | hresponse
      · rw [hbody] at hv
        cases hv
      · simp [Packet.isResponse, hbody] at hresponse

/-- The upload then fails before its blob is known, and leaves a response unread. -/
theorem create_refused (hu : link.Undisturbed) (h : Idle c) (hrefused : ¬ NoneRefused c) :
    ∃ e c', (create tx upload).run link c = (.error e, c') ∧
      c'.deferredResponses < replies (c'.inbound ++ c'.unflushed) := by
  have hsome : ∃ p ∈ c.inbound ++ c.unflushed, Refuses p := by
    by_contra hnone
    exact hrefused fun p hp hr => hnone ⟨p, hp, hr⟩
  have hqueue : (asking link tx c).inbound = c.inbound ++ c.unflushed ++
      link.server.packets (.createBlob tx) c.requests c.turn := by
    have hall := Conn.flush_queue (c.send link false (.createBlob tx))
    rw [flush_unflushed, List.append_nil] at hall
    rw [asking, hall, List.append_assoc]
    rfl
  have hdeferred : (asking link tx c).deferredResponses = c.deferredResponses :=
    Conn.flush_deferredResponses _
  have hcount : replies (c.inbound ++ c.unflushed) ≤ (asking link tx c).deferredResponses :=
    Nat.le_of_eq (h.count.trans hdeferred.symm)
  obtain ⟨e, c', hread, hunflushed, hleft⟩ := readOpFrom_refused hu
    (link.server.packets (.createBlob tx) c.requests c.turn) h.bodies hsome hcount
  refine ⟨e, c', ?_, ?_⟩
  · have hop : readOp link (asking link tx c) = (.error e, c') := by
      rw [readOp, hqueue]
      exact hread
    have hresponse : readResponse link (asking link tx c) = (.error e, c') := by
      change Async.bind (readOp link) _ _ = _
      unfold Async.bind
      rw [hop]
    have hattempt : Async.attempt (readResponse link) (asking link tx c) =
        (.ok (.error e), c') := by
      change Async.handle (Async.bind (readResponse link) fun a => Async.pure (Except.ok a))
        (fun e => Async.pure (Except.error e)) _ = _
      unfold Async.handle Async.bind
      rw [hresponse]
      rfl
    rw [create_eq]
    change Async.bind (Async.attempt (readResponse link))
      (fun r => (created upload r).run link) (asking link tx c) = _
    unfold Async.bind
    rw [hattempt]
    rfl
  · have hone : replies (link.server.packets (.createBlob tx) c.requests c.turn) = 1 :=
      replies_packets_plain rfl _ _
    have hempty : (asking link tx c).unflushed = [] := flush_unflushed _
    rw [hunflushed, hempty, List.append_nil]
    rw [replies_append, h.count, hone, hdeferred] at hleft
    omega

theorem holds_iff (hu : link.Undisturbed) (h : Idle c) {x : M Bytes}
    (hrun : (create tx upload).run link = x)
    (hupload : ∀ blob s, Sending 0 s → Meets (upload blob)
      (fun _ s' => fails = false ∧ Uploaded blob segSize s.sent bytes s')
      (fun _ s' => CutShort blob segSize s.sent bytes s') s) :
    Holds link (fun _ => True) x (create tx upload) tx segSize bytes fails c ↔ NoneRefused c := by
  constructor
  · intro hholds
    by_contra hrefused
    obtain ⟨e, c', hfails, hleft⟩ := @create_refused link c tx upload hu h hrefused
    rw [hrun] at hfails
    have ⟨_, hcount⟩ := hholds.settles _ _ hfails trivial
    rw [hcount] at hleft
    exact absurd hleft (Nat.lt_irrefl _)
  · intro hnone
    exact holds_of_sync (history_undisturbed hu) (fun _ => h.sync hnone) hrun hupload

/-! The two uploads -/

theorem segments_meet (data : Bytes) (chunkSize blob : Nat) {s : Account Request}
    (h : Sending 0 s) :
    Meets (writeSegments blob (sliceSegments (segmentSize chunkSize) data.length data) 0)
      (fun _ s' => false = false ∧ Uploaded blob (segmentSize chunkSize) s.sent data s')
      (fun _ s' => CutShort blob (segmentSize chunkSize) s.sent data s') s :=
  (writeSegments_uploads blob chunkSize data h).mono (fun _ _ h' => ⟨rfl, h'⟩) fun _ _ h' => h'

theorem chunks_meet (encodeText : String → Except FirebirdError Bytes)
    (source : List (Except FirebirdError Chunk)) (chunkSize blob : Nat) {s : Account Request}
    (h : Sending 0 s) : Meets (writeChunks encodeText blob (segmentSize chunkSize) source 0 [])
      (fun _ s' => (sourceBytes encodeText source).2 = false ∧
        Uploaded blob (segmentSize chunkSize) s.sent (sourceBytes encodeText source).1 s')
      (fun _ s' => CutShort blob (segmentSize chunkSize) s.sent
        (sourceBytes encodeText source).1 s') s := by
  have hmeets := @writeChunks_meets encodeText blob _ (segmentSize_pos chunkSize) source
    0 [] s h (segmentSize_pos chunkSize)
  rw [List.nil_append] at hmeets
  exact hmeets

/-- An upload is faithful if and only if no response that is deferred when it begins is an error.
On a connection whose statement cache may be cleared meanwhile, it is as long as the history is
clean. -/
theorem uploads_faithful_iff (h : Idle c) (chunkSize : Nat) :
    (link.Undisturbed →
      (∀ data, Holds link (fun _ => True) (FastFirebird.writeBlob link tx data chunkSize)
        (writeBlob tx data chunkSize) tx (segmentSize chunkSize) data false c ↔ NoneRefused c) ∧
      (∀ encodeText source, Holds link (fun _ => True)
        (FastFirebird.writeBlobStream link encodeText tx source chunkSize)
        (writeBlobStream encodeText tx source chunkSize) tx (segmentSize chunkSize)
        (sourceBytes encodeText source).1 (sourceBytes encodeText source).2 c ↔ NoneRefused c)) ∧
    (NoneRefused c →
      (∀ data, Holds link Clean (FastFirebird.writeBlob link tx data chunkSize)
        (writeBlob tx data chunkSize) tx (segmentSize chunkSize) data false c) ∧
      (∀ encodeText source, Holds link Clean
        (FastFirebird.writeBlobStream link encodeText tx source chunkSize)
        (writeBlobStream encodeText tx source chunkSize) tx (segmentSize chunkSize)
        (sourceBytes encodeText source).1 (sourceBytes encodeText source).2 c)) := by
  refine ⟨fun hu => ⟨fun data => ?_, fun encodeText source => ?_⟩,
    fun hnone => ⟨fun data => ?_, fun encodeText source => ?_⟩⟩
  · exact holds_iff hu h (writeBlob_run tx data chunkSize) fun blob _ =>
      segments_meet data chunkSize blob
  · exact holds_iff hu h (writeBlobStream_run encodeText tx source chunkSize) fun blob _ =>
      chunks_meet encodeText source chunkSize blob
  · exact holds_of_sync history_clean (fun _ => h.sync hnone) (writeBlob_run tx data chunkSize)
      fun blob _ => segments_meet data chunkSize blob
  · exact holds_of_sync history_clean (fun _ => h.sync hnone)
      (writeBlobStream_run encodeText tx source chunkSize) fun blob _ =>
        chunks_meet encodeText source chunkSize blob

theorem idle_fresh : Idle fresh :=
  ⟨fun _ hp => absurd hp List.not_mem_nil, rfl, fun _ hp => absurd hp List.not_mem_nil, trivial⟩

/-- On a fresh connection to a server that accepts everything, with segments of two bytes. -/
theorem uploads_faithful_fresh :
    Holds accepting (fun _ => True) (FastFirebird.writeBlob accepting 1 [1, 2, 3] 2)
      (writeBlob 1 [1, 2, 3] 2) 1 2 [1, 2, 3] false fresh :=
  (((@uploads_faithful_iff accepting fresh 1 idle_fresh 2).1 fun _ => rfl).1 [1, 2, 3]).mpr
    fun _ hp => absurd hp List.not_mem_nil

def isClose : Request → Bool
  | .closeBlob _ => true
  | _ => false

/-- A connection on which the close of an earlier blob was left to the drain. -/
def closing : Conn := fresh.sendDeferred (refusing isClose) (.closeBlob 7)

/-- The server refuses that close: the upload throws the error, and leaves its own response. -/
theorem refused_close_unread : Idle closing ∧ (refusing isClose).Undisturbed ∧
    ¬ Holds (refusing isClose) (fun _ => True)
      (FastFirebird.writeBlob (refusing isClose) 1 [1, 2, 3] 2) (writeBlob 1 [1, 2, 3] 2) 1 2
      [1, 2, 3] false closing := by
  refine ⟨⟨?_, by decide, ?_, ?_⟩, fun _ => rfl, fun hholds => ?_⟩
  · intro p hp
    obtain rfl := List.mem_singleton.mp hp
    exact Or.inr rfl
  · intro p hp _
    obtain rfl := List.mem_singleton.mp hp
    exact List.mem_cons_self
  · exact ⟨trivial, trivial, trivial⟩
  · have ⟨_, hcount⟩ := hholds.settles _ _ rfl trivial
    exact absurd hcount (by decide +kernel)

end Upload
end FastFirebird
