import FastFirebird.ExecuteSync

/-! What reading a fetch-response stream leaves on a wire that was in step. -/
namespace FastFirebird

variable {link : Link} {codec : Codec}

/-- The messages of a fetch answer, one for each row and the terminator. -/
def fetchMessages (readers : List ColumnReader) (rows : List RowAnswer) (finish : FetchEnd) :
    List (List Body) :=
  rows.map (fun cells => [.fetchResponse 0 1, .row (rowCells readers.length cells)]) ++
    [finish.message]

theorem packets_fetch {server : Server} {stmt : PreparedStatementInfo} {count : Nat}
    {behind : Option Nat} (n turn : Nat) :
    server.packets (.fetch stmt count behind) n turn =
      stamp n turn (interleave (server.volunteers n)
        (fetchMessages stmt.columnReaders (server.fetch (.fetch stmt count behind) n).rows
          (server.fetch (.fetch stmt count behind) n).finish)) := rfl

theorem stamp_interleave_cons {n turn : Nat} {volunteers : Nat → List Volunteer} {m : List Body}
    {ms : List (List Body)} :
    stamp n turn (interleave volunteers (m :: ms)) =
      stamp n turn ((volunteers 0).map .volunteer) ++ (stamp n turn m ++
        stamp n turn (interleave (fun k => volunteers (k + 1)) ms)) := by
  simp [interleave]

theorem fetchMessages_cons (readers : List ColumnReader) (cells : RowAnswer) (rows : List RowAnswer)
    (finish : FetchEnd) :
    fetchMessages readers (cells :: rows) finish =
      [.fetchResponse 0 1, .row (rowCells readers.length cells)] :: fetchMessages readers rows finish :=
  rfl

/-- The last packet of a stream is not one the drain gets through. -/
theorem finish_blocks (readers : List ColumnReader) (rows : List RowAnswer) (finish : FetchEnd)
    (volunteers : Nat → List Volunteer) (n turn : Nat) :
    ∃ p ∈ stamp n turn (interleave volunteers (fetchMessages readers rows finish)), p.blocks := by
  have hfinish : ∃ body, finish.message = [body] ∧ (⟨n, turn, body⟩ : Packet).blocks := by
    cases finish <;> exact ⟨_, rfl, by simp, by simp⟩
  obtain ⟨body, hm, hb⟩ := hfinish
  refine ⟨⟨n, turn, body⟩, List.mem_map.mpr ⟨body, ?_, rfl⟩, hb⟩
  refine mem_interleave (List.mem_append_right _ (List.mem_singleton.mpr rfl)) ?_
  simp [hm]

theorem along_readFetchOp {r : Conn → Conn → Prop} [Reads link r] (stmt : PreparedStatementInfo)
    (rows : List Row) {next : List Row → M FetchBatch} (hn : ∀ rows, Async.Along r (next rows))
    (p : Packet) : Async.Along r (readFetchOp link stmt rows next p) := by
  unfold readFetchOp
  split
  · refine along_await.bind fun _ => ?_
    split
    · exact .pure _
    · split
      · exact .pure _
      · exact (along_readRow _).bind fun row => hn _
  · exact (along_parseResponseBody _).bind fun _ => .pure _
  · exact @along_unexpectedOp link r _ _ p

theorem along_readFetchBatch {r : Conn → Conn → Prop} [Reads link r] (stmt : PreparedStatementInfo)
    (fuel : Nat) (rows : List Row) : Async.Along r (readFetchBatch link stmt fuel rows) := by
  induction fuel generalizing rows with
  | zero => exact .stall
  | succ fuel ih => exact along_readOp.bind fun p => along_readFetchOp stmt rows ih p

/-- What a fetch batch comes to: `rows` and `finish` are the server's answer. -/
def fetchPost (K : List Event → Prop) (readers : List ColumnReader) (rows : List RowAnswer)
    (finish : FetchEnd) (l : List Packet) : Async.Post Conn FirebirdError FetchBatch where
  ok b c' := K c'.log → rows.all (decodes readers) = true ∧
    ((finish = .eof ∧ b.eof = true) ∨ (finish = .more ∧ b.eof = false)) ∧ Sync l c'
  error _ c' := K c'.log →
    (rows.all (decodes readers) = true ∧ (∃ e, finish = .error e) ∧ Sync l c') ∨
    (rows.all (decodes readers) = false ∧
      ∃ junk, (∃ p ∈ junk, p.blocks) ∧ Sync (junk ++ l) c')
  pending c' := K c'.log → Fifo c'.log

/-- The terminator of a batch. -/
theorem readFetchOp_finish {K : List Event → Prop} (hK : History link K) {c : Conn}
    {stmt : PreparedStatementInfo} {acc : List Row} {next : List Row → M FetchBatch}
    {finish : FetchEnd} {p : Packet} {l : List Packet} (hl : Readable l)
    (hp : finish.message = [p.body]) (h : Guarded K l c) :
    Async.wp (readFetchOp link stmt acc next p) (fetchPost K stmt.columnReaders [] finish l) c := by
  have ha : Guarded K l (c.await link) := hK.await_sync hl h
  cases finish with
  | eof =>
    obtain hb : .fetchResponse 100 0 = p.body := List.singleton_inj.mp hp
    simp only [readFetchOp, ← hb, ↓reduceIte, Async.wp_bind, Async.wp_modify, Async.wp_pure]
    exact fun hk => ⟨rfl, Or.inl ⟨rfl, rfl⟩, ha hk⟩
  | more =>
    obtain hb : .fetchResponse 0 0 = p.body := List.singleton_inj.mp hp
    simp only [readFetchOp, ← hb, show ¬(0 : Nat) = 100 by decide, ↓reduceIte, Async.wp_bind,
      Async.wp_modify, Async.wp_pure]
    exact fun hk => ⟨rfl, Or.inr ⟨rfl, rfl⟩, ha hk⟩
  | error e =>
    obtain hb : .response (.error e) = p.body := List.singleton_inj.mp hp
    simp only [readFetchOp, ← hb, Async.wp_bind]
    refine Async.wp_mono (parseResponseBody_sync hK hl h) ?_ ?_ fun _ h => h.elim
    · exact fun _ _ h => absurd h.1 (by simp)
    · exact fun _ _ h hk => Or.inl ⟨rfl, ⟨e, rfl⟩, h.2 hk⟩

/-- A batch is read to its end, unless a row throws: then its terminator at least
is left on the wire. -/
theorem readFetchBatch_sync {K : List Event → Prop} (hK : History link K)
    {stmt : PreparedStatementInfo} {n turn : Nat} {l : List Packet} (hl : Readable l)
    {finish : FetchEnd} (fuel : Nat) (acc : List Row) (volunteers : Nat → List Volunteer)
    (rows : List RowAnswer) {c : Conn}
    (h : Guarded K (stamp n turn (interleave volunteers
      (fetchMessages stmt.columnReaders rows finish)) ++ l) c) :
    Async.wp (readFetchBatch link stmt fuel acc) (fetchPost K stmt.columnReaders rows finish l) c := by
  induction fuel generalizing acc volunteers rows c with
  | zero => exact fun hk => (h hk).fifo
  | succ fuel ih =>
    have hout : ∀ p c₁, ¬ K c₁.log → Async.wp
        (readFetchOp link stmt acc (readFetchBatch link stmt fuel) p)
        (fetchPost K stmt.columnReaders rows finish l) c₁ := fun p c₁ hn =>
      hK.wp_of_not (along_readFetchOp stmt acc (along_readFetchBatch stmt fuel) p) hn
        (fun _ _ hn hk => absurd hk hn) (fun _ _ hn hk => absurd hk hn) fun _ hn hk => absurd hk hn
    unfold readFetchBatch
    rw [Async.wp_bind]
    cases rows with
    | nil =>
      obtain ⟨body, hb, hop⟩ : ∃ body, finish.message = [body] ∧ (⟨n, turn, body⟩ : Packet).IsOp := by
        cases finish <;> exact ⟨_, rfl, trivial⟩
      have h' : Guarded K (stamp n turn ((volunteers 0).map .volunteer) ++ ⟨n, turn, body⟩ :: l) c := by
        simpa [fetchMessages, stamp_interleave_cons, hb, interleave] using h
      refine Async.wp_mono (readOp_sync hK stamp_volunteered hop h') ?_
        (fun _ _ h hk => absurd hk h) fun _ h => h
      intro p c₁ h₁
      by_cases hk : K c₁.log
      · obtain ⟨rfl, hf⟩ := h₁ hk
        exact readFetchOp_finish hK hl hb fun _ => hf.sync
      · exact hout p c₁ hk
    | cons cells rows =>
      have h' : Guarded K (stamp n turn ((volunteers 0).map .volunteer) ++
          ⟨n, turn, .fetchResponse 0 1⟩ :: ⟨n, turn, .row (rowCells stmt.columnReaders.length cells)⟩ ::
            (stamp n turn (interleave (fun k => volunteers (k + 1))
              (fetchMessages stmt.columnReaders rows finish)) ++ l)) c := by
        simpa [fetchMessages_cons, stamp_interleave_cons] using h
      refine Async.wp_mono (readOp_sync hK stamp_volunteered (by simp [Packet.IsOp]) h') ?_
        (fun _ _ h hk => absurd hk h) fun _ h => h
      intro p c₁ h₁
      by_cases hk : K c₁.log
      · obtain ⟨rfl, hf⟩ := h₁ hk
        simp only [readFetchOp, show ¬(0 : Nat) = 100 by decide, Nat.one_ne_zero,
          ↓reduceIte, Async.wp_bind, Async.wp_modify]
        have hrow : GuardedFront K _ (c₁.await link) := fun hk₂ => hK.front _ c₁ hf rfl hk₂
        refine Async.wp_mono (readRow_sync hK hrow) ?_ ?_ fun _ h => h
        · intro row c₂ h₂
          have hnext := with_history (along_readFetchBatch stmt fuel (acc ++ [row]))
            (ih (acc ++ [row]) _ rows fun hk => (h₂ hk).2.sync)
          refine Async.wp_mono hnext ?_ ?_ fun _ h => h.2
          · rintro b c₃ ⟨hg, h₃⟩ hk
            obtain ⟨hall, hend⟩ := h₃ hk
            exact ⟨by simpa [hall] using (h₂ (hK.of_suffix hg hk)).1, hend⟩
          · rintro e c₃ ⟨hg, h₃⟩ hk
            have hcells := (h₂ (hK.of_suffix hg hk)).1
            simpa [hcells] using h₃ hk
        · intro e c₂ h₂ hk₂
          obtain ⟨hcells, rest, -, hf⟩ := h₂ hk₂
          obtain ⟨q, hq, hb⟩ := finish_blocks stmt.columnReaders rows finish
            (fun k => volunteers (k + 1)) n turn
          refine Or.inr ⟨by simp [hcells], rest ++ stamp n turn _, ⟨q, List.mem_append_right _ hq, hb⟩, ?_⟩
          simpa using hf.sync
      · exact hout p c₁ hk

end FastFirebird
