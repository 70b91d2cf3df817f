import FastFirebird.Session

/-! What `materialize` puts into the cells of a batch of rows. -/
namespace FastFirebird

namespace Async

variable {σ ε α β : Type} {x : Async σ ε α} {f : α → Async σ ε β} {P : α → Prop} {Q : β → Prop}

/-- What `x` returns, when it does, is as `P` says. -/
def Returns (x : Async σ ε α) (P : α → Prop) : Prop := ∀ s a t, x s = (.ok a, t) → P a

theorem bind_ok {s : σ} {b : β} {t : σ} (h : (x >>= f) s = (.ok b, t)) :
    ∃ a s', x s = (.ok a, s') ∧ f a s' = (.ok b, t) := by
  change Async.bind x f s = _ at h
  unfold Async.bind at h
  rcases hx : x s with ⟨a | e | _, s'⟩ <;> rw [hx] at h
  · exact ⟨a, s', rfl, h⟩
  · cases h
  · cases h

theorem lift_ok {r : Except ε α} {s t : σ} {a : α} (h : lift r s = (.ok a, t)) :
    r = .ok a ∧ t = s := by
  cases r with
  | ok b =>
    obtain ⟨hb, ht⟩ := Prod.mk.inj h
    exact ⟨congrArg Except.ok (Outcome.ok.inj hb), ht.symm⟩
  | error e => cases h

theorem attempt_ok {s t : σ} {a : α} (h : attempt x s = (.ok (.ok a), t)) : x s = (.ok a, t) := by
  have hrun : wp (attempt x) ⟨fun r t => ∀ a, r = .ok a → x s = (.ok a, t), fun _ _ => True,
      fun _ => True⟩ s := by
    refine wp_attempt.mpr ?_
    unfold wp
    rcases x s with ⟨b | e | _, s'⟩
    · exact fun a ha => by rw [Except.ok.inj ha]
    · exact fun a ha => by cases ha
    · trivial
  exact wp_eq_of_run hrun h a rfl

namespace Returns

theorem pure {a : α} (h : P a) : Returns (Pure.pure a : Async σ ε α) P := by
  intro s b t hr
  obtain rfl := Outcome.ok.inj (Prod.mk.inj hr).1
  exact h

theorem throw {e : ε} : Returns (MonadExcept.throw e : Async σ ε α) P :=
  fun _ _ _ hr => nomatch (Prod.mk.inj hr).1

theorem stall : Returns (Async.stall : Async σ ε α) P :=
  fun _ _ _ hr => nomatch (Prod.mk.inj hr).1

theorem bind (hx : Returns x P) (hf : ∀ a, P a → Returns (f a) Q) : Returns (x >>= f) Q := by
  intro s b t hr
  obtain ⟨a, s', ha, hb⟩ := bind_ok hr
  exact hf a (hx s a s' ha) s' b t hb

theorem behind (hf : ∀ a, Returns (f a) Q) : Returns (x >>= f) Q := by
  intro s b t hr
  obtain ⟨a, s', _, hb⟩ := bind_ok hr
  exact hf a s' b t hb

end Returns
end Async

open Async (Returns)

/-! `readBlobs` answers for every blob -/

variable (link : Link)

def BlobReads.Counts (n : Nat) (st : BlobReads) : Prop := st.blobs.length = n

variable {n : Nat} {st : BlobReads}

theorem BlobReads.Counts.setBlob (h : st.Counts n) (i : Nat) (b : BlobState) :
    (st.setBlob i b).Counts n := (List.length_set ..).trans h

theorem flushNow_counts (h : st.Counts n) : Returns (flushNow st) (BlobReads.Counts n) := by
  unfold flushNow
  split
  · exact .pure h
  · exact .behind fun _ => .pure h

theorem flushFull_counts (h : st.Counts n) : Returns (flushFull st) (BlobReads.Counts n) := by
  unfold flushFull
  split
  · exact flushNow_counts h
  · exact .pure h

theorem flushIdle_counts (h : st.Counts n) : Returns (flushIdle st) (BlobReads.Counts n) := by
  unfold flushIdle
  split
  · exact flushNow_counts h
  · exact .pure h

theorem pumpOpens_counts (tx : Nat) (ids : List Bytes) (fuel : Nat) : ∀ {st : BlobReads},
    st.Counts n → Returns (pumpOpens link tx ids fuel st) (BlobReads.Counts n) := by
  induction fuel with
  | zero => exact fun h => .pure h
  | succ fuel ih =>
    intro st h
    unfold pumpOpens
    split
    · exact .behind fun _ => ih h
    · exact .pure h

theorem pumpBlob_counts (bufferLength i : Nat) (h : st.Counts n) :
    Returns (pumpBlob link bufferLength i st) (BlobReads.Counts n) := by
  unfold pumpBlob
  split
  · split
    · exact .pure h
    · exact .behind fun _ => .pure (h.setBlob i _)
  · exact .pure h

theorem pumpSegments_counts (bufferLength : Nat) (is : List Nat) : ∀ {st : BlobReads},
    st.Counts n → Returns (pumpSegments link bufferLength is st) (BlobReads.Counts n) := by
  induction is with
  | nil => exact fun h => .pure h
  | cons i is ih =>
    intro st h
    unfold pumpSegments
    split
    · exact .bind (pumpBlob_counts link bufferLength i h) fun _ h => ih h
    · exact .pure h

theorem pump_counts (tx bufferLength : Nat) (ids : List Bytes) (h : st.Counts n) :
    Returns (pump link tx bufferLength ids st) (BlobReads.Counts n) := by
  unfold pump
  exact .bind (pumpOpens_counts link tx ids _ h) fun _ h => pumpSegments_counts link bufferLength _ h

theorem receiveSegment_counts (i : Nat) (seg : Segment) (h : st.Counts n) :
    Returns (receiveSegment link i seg st) (BlobReads.Counts n) := by
  unfold receiveSegment
  dsimp only
  split
  · exact .pure h
  · split
    · exact .behind fun _ => .pure (h.setBlob i _)
    · exact .pure (h.setBlob i _)

theorem readPending_counts (p : PendingRead) (h : st.Counts n) :
    Returns (readPending link p st) fun r => ∀ st', r = .ok st' → st'.Counts n := by
  unfold readPending
  cases p with
  | «open» i =>
    refine .behind fun r => ?_
    cases r with
    | ok resp =>
      refine .pure fun st' hr => ?_
      obtain rfl := Except.ok.inj hr
      exact h.setBlob i _
    | error e => exact .pure fun _ hr => nomatch hr
  | close =>
    refine .behind fun _ => .pure fun st' hr => ?_
    obtain rfl := Except.ok.inj hr
    exact h
  | seg i =>
    dsimp only
    refine .behind fun r => ?_
    cases r with
    | ok seg =>
      refine .bind (receiveSegment_counts link i seg (h.setBlob i _)) fun st' h' => .pure ?_
      intro st'' hr
      obtain rfl := Except.ok.inj hr
      exact h'
    | error e => exact .pure fun _ hr => nomatch hr

theorem readBlobsLoop_length (tx bufferLength : Nat) (ids : List Bytes) (fuel : Nat) :
    ∀ {st : BlobReads}, st.Counts n →
      Returns (readBlobsLoop link tx bufferLength ids fuel st) fun datas => datas.length = n := by
  induction fuel with
  | zero => exact fun _ => .stall
  | succ fuel ih =>
    intro st h
    unfold readBlobsLoop
    refine .bind (pump_counts link tx bufferLength ids h) fun st₁ h₁ => ?_
    refine .bind (flushFull_counts h₁) fun st₂ h₂ => ?_
    refine .bind (flushIdle_counts h₂) fun st₃ h₃ => ?_
    split
    · exact .pure ((List.length_map _).trans h₃)
    · refine .bind (readPending_counts link _ (by exact h₃)) fun r hr => ?_
      cases r with
      | ok st' => exact ih (hr st' rfl)
      | error e =>
        unfold abandonReads
        exact .behind fun _ => .behind fun _ => .behind fun _ => .throw

theorem readBlobs_length (fuel tx : Nat) (ids : List Bytes) (chunkSize : Nat) :
    Returns (readBlobs link fuel tx ids chunkSize) fun datas => datas.length = ids.length := by
  unfold readBlobs
  split
  · exact .pure rfl
  · exact .behind fun _ => .pure rfl
  · exact readBlobsLoop_length link tx _ _ fuel (List.length_map _)

/-! The claims of the inline cache -/

/-- The answers of the inline cache for some blobs, one claim after another. -/
def inlineTakes (tx : Nat) : List Bytes → Conn → List (Option Bytes) × Conn
  | [], c => ([], c)
  | id :: ids, c =>
    match c.inline.bind (·.take tx id) with
    | some (data, inline) =>
      let (claims, c) := inlineTakes tx ids { c with inline := some inline }
      (some data :: claims, c)
    | none =>
      let (claims, c) := inlineTakes tx ids c
      (none :: claims, c)

/-- The blobs that were not claimed. -/
def missed : List Bytes → List (Option Bytes) → List Bytes
  | id :: ids, none :: claims => id :: missed ids claims
  | _ :: ids, some _ :: claims => missed ids claims
  | _, _ => []

/-- What the blobs hold: the claimed contents, and for the others what was read, in order. -/
def contents : List (Option Bytes) → List Bytes → List Bytes
  | [], datas => datas
  | some data :: claims, datas => data :: contents claims datas
  | none :: claims, datas => datas.headD [] :: contents claims datas.tail

theorem inlineTake_run (tx : Nat) (id : Bytes) (c : Conn) : FastFirebird.inlineTake tx id c =
    match c.inline.bind (·.take tx id) with
    | some (data, inline) => (.ok (some data), { c with inline := some inline })
    | none => (.ok none, c) := by
  simp only [FastFirebird.inlineTake, bind, Async.bind, get, getThe, MonadStateOf.get]
  cases c.inline.bind (·.take tx id) with
  | none => rfl
  | some claim => rfl

theorem length_inlineTakes (tx : Nat) (ids : List Bytes) : ∀ c : Conn,
    (inlineTakes tx ids c).1.length = ids.length := by
  induction ids with
  | nil => exact fun _ => rfl
  | cons id ids ih =>
    intro c
    rw [inlineTakes]
    split
    · exact congrArg Nat.succ (ih _)
    · exact congrArg Nat.succ (ih _)

theorem inlineTakes_append (tx : Nat) (ids more : List Bytes) : ∀ c : Conn,
    inlineTakes tx (ids ++ more) c =
      ((inlineTakes tx ids c).1 ++ (inlineTakes tx more (inlineTakes tx ids c).2).1,
        (inlineTakes tx more (inlineTakes tx ids c).2).2) := by
  induction ids with
  | nil => exact fun _ => rfl
  | cons id ids ih =>
    intro c
    rw [List.cons_append, inlineTakes, inlineTakes]
    split
    · rw [ih]
      rfl
    · rw [ih]
      rfl

theorem missed_append : ∀ {ids : List Bytes} {claims : List (Option Bytes)} (more : List Bytes)
    (moreClaims : List (Option Bytes)), claims.length = ids.length →
      missed (ids ++ more) (claims ++ moreClaims) = missed ids claims ++ missed more moreClaims := by
  intro ids
  induction ids with
  | nil =>
    intro claims more moreClaims h
    obtain rfl := List.length_eq_zero_iff.mp h
    rfl
  | cons id ids ih =>
    intro claims more moreClaims h
    cases claims with
    | nil => cases h
    | cons claim claims =>
      have hrest := ih more moreClaims (Nat.succ.inj h)
      cases claim with
      | none => exact congrArg (id :: ·) hrest
      | some data => exact hrest

namespace RowMapper

variable (mapper : RowMapper)

theorem decodeCell_scalar {i : Nat} {subType : Int} {data : Bytes} {v : Value}
    (h : mapper.decodeCell i subType data = .ok v) : ∃ b, v = .scalar b := by
  unfold decodeCell at h
  split at h
  · rename_i decode _
    split at h
    · cases hdecode : decode data with
      | ok b =>
        rw [hdecode] at h
        exact ⟨b, (Except.ok.inj h).symm⟩
      | error e =>
        rw [hdecode] at h
        cases h
    · exact ⟨data, (Except.ok.inj h).symm⟩
  · exact ⟨data, (Except.ok.inj h).symm⟩

/-- A cell of column `i` that `materialize` looks up. -/
def takes (i : Nat) : Value → Bool
  | .blobRef _ _ => mapper.eager i
  | .null | .scalar _ => false

section
variable {mapper} {i : Nat} {v : Value} {cells : Row}

theorem wantedRow_stays (h : mapper.takes i v = false) :
    mapper.wantedRow i (v :: cells) = mapper.wantedRow (i + 1) cells := by
  cases v with
  | blobRef id subType =>
    rw [takes] at h
    rw [wantedRow, h]
    rfl
  | null | scalar => rfl

theorem fillRow_stays (h : mapper.takes i v = false) (datas : List Bytes) :
    mapper.fillRow i (v :: cells) datas =
      (mapper.fillRow (i + 1) cells datas).map fun (row, datas) => (v :: row, datas) := by
  cases v with
  | blobRef id subType =>
    rw [takes] at h
    rw [fillRow, h, if_neg Bool.false_ne_true]
    cases mapper.fillRow (i + 1) cells datas <;> rfl
  | null | scalar =>
    rw [fillRow]
    · cases mapper.fillRow (i + 1) cells datas <;> rfl
    · exact nofun

theorem claimCell_stays (h : mapper.takes i v = false) (tx : Nat) (c : Conn) :
    mapper.claimCell tx i v c = (.ok v, c) := by
  cases v with
  | blobRef id subType =>
    rw [takes] at h
    rw [claimCell, h]
    rfl
  | null | scalar => rfl

theorem wantedRow_takes {id : Bytes} {subType : Int} (h : mapper.eager i = true) :
    mapper.wantedRow i (.blobRef id subType :: cells) = id :: mapper.wantedRow (i + 1) cells := by
  rw [wantedRow, h]
  rfl

theorem fillRow_takes {id : Bytes} {subType : Int} (h : mapper.eager i = true)
    (datas : List Bytes) : mapper.fillRow i (.blobRef id subType :: cells) datas =
      (mapper.decodeCell i subType (datas.headD [])).bind fun cell =>
        (mapper.fillRow (i + 1) cells datas.tail).map fun (row, datas) => (cell :: row, datas) := by
  rw [fillRow, h, if_pos rfl]
  cases mapper.decodeCell i subType (datas.headD []) with
  | error e => rfl
  | ok cell => cases mapper.fillRow (i + 1) cells datas.tail <;> rfl

/-- A lookup hits, and the cell gets the decoded content, or it misses, and the cell stays. -/
theorem claimCell_takes {id : Bytes} {subType : Int} (h : mapper.eager i = true) {tx : Nat}
    {c c' : Conn} (hr : mapper.claimCell tx i (.blobRef id subType) c = (.ok v, c')) :
    (∃ data inline, c.inline.bind (·.take tx id) = some (data, inline) ∧
      c' = { c with inline := some inline } ∧ mapper.decodeCell i subType data = .ok v) ∨
    (c.inline.bind (·.take tx id) = none ∧ c' = c ∧ v = .blobRef id subType) := by
  rw [claimCell, h, if_pos rfl] at hr
  obtain ⟨claim, c₁, htake, hr⟩ := Async.bind_ok hr
  rw [inlineTake_run] at htake
  cases hclaim : c.inline.bind (·.take tx id) with
  | none =>
    rw [hclaim] at htake
    obtain ⟨hnone, rfl⟩ := Prod.mk.inj htake
    obtain rfl := Outcome.ok.inj hnone
    obtain ⟨hv, rfl⟩ := Prod.mk.inj hr
    exact Or.inr ⟨rfl, rfl, (Outcome.ok.inj hv).symm⟩
  | some found =>
    obtain ⟨data, inline⟩ := found
    rw [hclaim] at htake
    obtain ⟨hsome, rfl⟩ := Prod.mk.inj htake
    obtain rfl := Outcome.ok.inj hsome
    have ⟨hdecode, hconn⟩ := Async.lift_ok hr
    exact Or.inl ⟨data, inline, rfl, hconn, hdecode⟩

end

/-- A row after the claims: what was claimed stands in its cells, and the rest of the blobs are the
ones to be read. -/
theorem claimRow_ok (tx : Nat) (row : Row) : ∀ {i : Nat} {c c' : Conn} {row' : Row},
    mapper.claimRow tx i row c = (.ok row', c') →
      (inlineTakes tx (mapper.wantedRow i row) c).2 = c' ∧
        mapper.wantedRow i row' =
          missed (mapper.wantedRow i row) (inlineTakes tx (mapper.wantedRow i row) c).1 ∧
        ∀ more datas, mapper.fillRow i row
            (contents ((inlineTakes tx (mapper.wantedRow i row) c).1 ++ more) datas) =
          (mapper.fillRow i row' datas).map fun (row, datas) => (row, contents more datas) := by
  induction row with
  | nil =>
    intro i c c' row' h
    obtain ⟨hrow, rfl⟩ := Prod.mk.inj h
    obtain rfl := Outcome.ok.inj hrow
    exact ⟨rfl, rfl, fun _ _ => rfl⟩
  | cons cell cells ih =>
    intro i c c' row' h
    rw [claimRow] at h
    obtain ⟨cell', c₁, hcell, h⟩ := Async.bind_ok h
    obtain ⟨cells', c₂, hcells, h⟩ := Async.bind_ok h
    obtain ⟨hrow, rfl⟩ := Prod.mk.inj h
    obtain rfl := Outcome.ok.inj hrow
    have ⟨hconn, hwanted, hfill⟩ := ih hcells
    cases htakes : mapper.takes i cell with
    | false =>
      rw [claimCell_stays htakes] at hcell
      obtain ⟨hv, rfl⟩ := Prod.mk.inj hcell
      obtain rfl := Outcome.ok.inj hv
      rw [wantedRow_stays htakes, wantedRow_stays htakes]
      refine ⟨hconn, hwanted, fun more datas => ?_⟩
      rw [fillRow_stays htakes, fillRow_stays htakes, hfill]
      cases mapper.fillRow (i + 1) cells' datas <;> rfl
    | true =>
      cases cell with
      | null | scalar => cases htakes
      | blobRef id subType =>
        have heager : mapper.eager i = true := htakes
        rw [wantedRow_takes heager, inlineTakes]
        rcases claimCell_takes heager hcell with
          ⟨data, inline, hclaim, rfl, hdecode⟩ | ⟨hclaim, rfl, rfl⟩
        · obtain ⟨b, rfl⟩ := mapper.decodeCell_scalar hdecode
          have hstays : mapper.takes i (.scalar b) = false := rfl
          rw [hclaim, wantedRow_stays hstays]
          refine ⟨hconn, hwanted, fun more datas => ?_⟩
          rw [fillRow_takes heager, fillRow_stays hstays]
          dsimp only [List.cons_append, contents, List.headD_cons, List.tail_cons]
          rw [hdecode, hfill]
          cases mapper.fillRow (i + 1) cells' datas <;> rfl
        · rw [hclaim, wantedRow_takes heager]
          refine ⟨hconn, congrArg (id :: ·) hwanted, fun more datas => ?_⟩
          rw [fillRow_takes heager, fillRow_takes heager]
          dsimp only [List.cons_append, contents, List.headD_cons, List.tail_cons]
          rw [hfill]
          cases mapper.decodeCell i subType (datas.headD []) with
          | error e => rfl
          | ok v => cases mapper.fillRow (i + 1) cells' datas.tail <;> rfl

/-- The blobs of a batch that `materialize` looks up, row by row. -/
def wanted (rows : List Row) : List Bytes := rows.flatMap (mapper.wantedRow 0)

theorem claimRows_ok (tx : Nat) (rows : List Row) : ∀ {c c' : Conn} {rows' : List Row},
    mapper.claimRows tx rows c = (.ok rows', c') →
      (inlineTakes tx (mapper.wanted rows) c).2 = c' ∧
        mapper.wanted rows' =
          missed (mapper.wanted rows) (inlineTakes tx (mapper.wanted rows) c).1 ∧
        ∀ datas, mapper.fillRows rows
            (contents (inlineTakes tx (mapper.wanted rows) c).1 datas) =
          mapper.fillRows rows' datas := by
  induction rows with
  | nil =>
    intro c c' rows' h
    obtain ⟨hrows, rfl⟩ := Prod.mk.inj h
    obtain rfl := Outcome.ok.inj hrows
    exact ⟨rfl, rfl, fun _ => rfl⟩
  | cons row rows ih =>
    intro c c' rows' h
    rw [claimRows] at h
    obtain ⟨row', c₁, hrow, h⟩ := Async.bind_ok h
    obtain ⟨rest, c₂, hrest, h⟩ := Async.bind_ok h
    obtain ⟨hrows, rfl⟩ := Prod.mk.inj h
    obtain rfl := Outcome.ok.inj hrows
    have ⟨hconn, hwanted, hfill⟩ := mapper.claimRow_ok tx row hrow
    have ⟨hconn', hwanted', hfill'⟩ := ih hrest
    have hsplit : mapper.wanted (row :: rows) = mapper.wantedRow 0 row ++ mapper.wanted rows :=
      List.flatMap_cons
    have hsplit' : mapper.wanted (row' :: rest) = mapper.wantedRow 0 row' ++ mapper.wanted rest :=
      List.flatMap_cons
    rw [hsplit, hsplit', inlineTakes_append, hconn]
    refine ⟨hconn', ?_, fun datas => ?_⟩
    · rw [missed_append _ _ (length_inlineTakes tx _ c), hwanted, hwanted']
    · rw [fillRows, fillRows, hfill]
      cases mapper.fillRow 0 row' datas with
      | error e => rfl
      | ok filled =>
        obtain ⟨cells, datas'⟩ := filled
        change (do let rows ← mapper.fillRows rows (contents _ datas'); pure (cells :: rows)) = _
        rw [hfill']
        rfl

theorem fillRow_none (row : Row) : ∀ {i : Nat}, mapper.wantedRow i row = [] →
    ∀ datas, mapper.fillRow i row datas = .ok (row, datas) := by
  induction row with
  | nil => exact fun _ _ => rfl
  | cons cell cells ih =>
    intro i h datas
    cases htakes : mapper.takes i cell with
    | false =>
      rw [wantedRow_stays htakes] at h
      rw [fillRow_stays htakes, ih h]
      rfl
    | true =>
      cases cell with
      | null | scalar => cases htakes
      | blobRef id subType =>
        rw [wantedRow_takes htakes] at h
        cases h

theorem fillRows_none (rows : List Row) (h : mapper.wanted rows = []) (datas : List Bytes) :
    mapper.fillRows rows datas = .ok rows := by
  induction rows with
  | nil => rfl
  | cons row rows ih =>
    have ⟨hrow, hrows⟩ := List.append_eq_nil_iff.mp h
    rw [fillRows, mapper.fillRow_none row hrow]
    change (do let rows ← mapper.fillRows rows datas; pure (row :: rows)) = _
    rw [ih hrows]
    rfl

/-- A reference that is left in a row was there before, in a column that is not looked up. -/
theorem fillRow_ref (row : Row) : ∀ {i : Nat} {datas rest : List Bytes} {row' : Row},
    mapper.fillRow i row datas = .ok (row', rest) → row'.length = row.length ∧
      ∀ (j : Nat) (id : Bytes) (subType : Int), row'[j]? = some (.blobRef id subType) →
        row[j]? = some (.blobRef id subType) ∧ mapper.eager (i + j) = false := by
  induction row with
  | nil =>
    intro i datas rest row' h
    obtain ⟨rfl, rfl⟩ := Prod.mk.inj (Except.ok.inj h)
    exact ⟨rfl, fun _ _ _ hj => nomatch hj⟩
  | cons cell cells ih =>
    intro i datas rest row' h
    have hcons {cell' : Value} {cells' : Row} (hlength : cells'.length = cells.length)
        (hrefs : ∀ (j : Nat) (id : Bytes) (subType : Int),
          cells'[j]? = some (.blobRef id subType) →
            cells[j]? = some (.blobRef id subType) ∧ mapper.eager (i + 1 + j) = false)
        (hcell : ∀ (id : Bytes) (subType : Int), cell' = .blobRef id subType →
          cell = .blobRef id subType ∧ mapper.eager i = false) :
        (cell' :: cells').length = (cell :: cells).length ∧
          ∀ (j : Nat) (id : Bytes) (subType : Int),
            (cell' :: cells')[j]? = some (.blobRef id subType) →
              (cell :: cells)[j]? = some (.blobRef id subType) ∧ mapper.eager (i + j) = false := by
      refine ⟨congrArg Nat.succ hlength, fun j id subType hj => ?_⟩
      cases j with
      | zero =>
        have ⟨hsame, heager⟩ := hcell id subType (Option.some.inj hj)
        exact ⟨congrArg some hsame, heager⟩
      | succ j =>
        have ⟨hsame, heager⟩ := hrefs j id subType hj
        rw [Nat.add_right_comm] at heager
        exact ⟨hsame, heager⟩
    cases htakes : mapper.takes i cell with
    | false =>
      rw [fillRow_stays htakes] at h
      cases hcells : mapper.fillRow (i + 1) cells datas with
      | error e =>
        rw [hcells] at h
        cases h
      | ok filled =>
        rw [hcells] at h
        obtain ⟨rfl, rfl⟩ := Prod.mk.inj (Except.ok.inj h)
        have ⟨hlength, hrefs⟩ := ih hcells
        refine hcons hlength hrefs ?_
        rintro id subType rfl
        exact ⟨rfl, htakes⟩
    | true =>
      cases cell with
      | null | scalar => cases htakes
      | blobRef id subType =>
        rw [fillRow_takes htakes] at h
        cases hdecode : mapper.decodeCell i subType (datas.headD []) with
        | error e =>
          rw [hdecode] at h
          cases h
        | ok v =>
          obtain ⟨b, rfl⟩ := mapper.decodeCell_scalar hdecode
          cases hcells : mapper.fillRow (i + 1) cells datas.tail with
          | error e =>
            rw [hdecode, hcells] at h
            cases h
          | ok filled =>
            rw [hdecode, hcells] at h
            obtain ⟨rfl, rfl⟩ := Prod.mk.inj (Except.ok.inj h)
            have ⟨hlength, hrefs⟩ := ih hcells
            exact hcons hlength hrefs fun _ _ hb => nomatch hb

theorem fillRows_ref (rows : List Row) : ∀ {datas : List Bytes} {rows' : List Row},
    mapper.fillRows rows datas = .ok rows' → ∀ row' ∈ rows', ∃ row ∈ rows,
      row'.length = row.length ∧
        ∀ (j : Nat) (id : Bytes) (subType : Int), row'[j]? = some (.blobRef id subType) →
          row[j]? = some (.blobRef id subType) ∧ mapper.eager j = false := by
  induction rows with
  | nil =>
    intro datas rows' h row' hrow'
    obtain rfl := Except.ok.inj h
    exact absurd hrow' List.not_mem_nil
  | cons row rows ih =>
    intro datas rows' h row' hrow'
    rw [fillRows] at h
    cases hrow : mapper.fillRow 0 row datas with
    | error e =>
      rw [hrow] at h
      cases h
    | ok filled =>
      obtain ⟨cells, rest⟩ := filled
      rw [hrow] at h
      change (do let rows ← mapper.fillRows rows rest; pure (cells :: rows)) = _ at h
      cases hrows : mapper.fillRows rows rest with
      | error e =>
        rw [hrows] at h
        cases h
      | ok others =>
        rw [hrows] at h
        obtain rfl := Except.ok.inj h
        rcases List.mem_cons.mp hrow' with rfl | hrow'
        · have ⟨hlength, hrefs⟩ := mapper.fillRow_ref row hrow
          refine ⟨row, List.mem_cons_self, hlength, fun j id subType hj => ?_⟩
          have ⟨hsame, heager⟩ := hrefs j id subType hj
          rw [Nat.zero_add] at heager
          exact ⟨hsame, heager⟩
        · obtain ⟨source, hsource, hrefs⟩ := ih hrows row' hrow'
          exact ⟨source, List.mem_cons_of_mem _ hsource, hrefs⟩

/-- The cells that are looked up get, each in the order of the rows, what the inline cache has for
their blob, else what `readBlobs` returned for it behind the claims. -/
structure Filled (opts : Options) (fuel tx : Nat) (rows : List Row) (c c' : Conn)
    (datas : List Bytes) (rows' : List Row) : Prop where
  counts : datas.length =
    (missed (mapper.wanted rows) (inlineTakes tx (mapper.wanted rows) c).1).length
  reads : missed (mapper.wanted rows) (inlineTakes tx (mapper.wanted rows) c).1 ≠ [] →
    readBlobs link fuel tx
      (missed (mapper.wanted rows) (inlineTakes tx (mapper.wanted rows) c).1)
        opts.blobReadChunkSize (inlineTakes tx (mapper.wanted rows) c).2 = (.ok datas, c')
  fills : mapper.fillRows rows (contents (inlineTakes tx (mapper.wanted rows) c).1 datas) = .ok rows'

variable {mapper link}

theorem materialize_filled {opts : Options} {fuel tx : Nat} {rows rows' : List Row} {c c' : Conn}
    (heager : mapper.hasKeptEagerBlobs = true)
    (h : mapper.materialize link opts fuel tx rows c = (.ok rows', c')) :
    ∃ datas, mapper.Filled link opts fuel tx rows (c.await link) c' datas rows' := by
  rw [materialize, heager] at h
  change (do
    let rows ← mapper.claimRows tx rows
    if (mapper.wanted rows).isEmpty then pure rows
    else
      let datas ← readBlobs link fuel tx (mapper.wanted rows) opts.blobReadChunkSize
      Async.lift (mapper.fillRows rows datas) : M (List Row)) (c.await link) = _ at h
  obtain ⟨claimed, c₁, hclaim, h⟩ := Async.bind_ok h
  have ⟨hclaims, hwanted, hfill⟩ := mapper.claimRows_ok tx rows hclaim
  split at h
  · rename_i hempty
    have hnone := List.isEmpty_iff.mp hempty
    obtain ⟨hrows, rfl⟩ := Prod.mk.inj h
    obtain rfl := Outcome.ok.inj hrows
    refine ⟨[], ?_, fun hne => absurd (hwanted.symm.trans hnone) hne, ?_⟩
    · rw [← hwanted, hnone]
    · rw [hfill, mapper.fillRows_none _ hnone]
  · obtain ⟨datas, c₂, hread, h⟩ := Async.bind_ok h
    have ⟨hrows, hc'⟩ := Async.lift_ok h
    rw [hwanted, ← hclaims, ← hc'] at hread
    exact ⟨datas, readBlobs_length link fuel tx _ _ _ _ _ hread, fun _ => hread,
      (hfill datas).trans hrows⟩

theorem materialize_idle {opts : Options} {fuel tx : Nat} {rows : List Row} {c : Conn}
    (heager : mapper.hasKeptEagerBlobs = false) :
    mapper.materialize link opts fuel tx rows c = (.ok rows, c.await link) := by
  rw [materialize, heager]
  rfl

end RowMapper

end FastFirebird
