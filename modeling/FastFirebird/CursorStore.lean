import FastFirebird.Arrivals
import Mathlib.Logic.Function.Basic

/-! A server that keeps cursors: an execute opens one on the result set of its statement, and what a
fetch brings are the rows next to come. -/
namespace FastFirebird

/-- The rows that the open cursors have still to bring, after so many executes. `failed` is set once
a fetch from one of them has failed. -/
structure CursorStore where
  executes : Nat := 0
  cursors : StmtHandle → Option (List (List (Option Bytes))) := fun _ => none
  failed : Bool := false

/-- The answer brings the next of the rows that are left, some at least if any were asked for. It is
the end of the cursor with the last of them only. -/
structure FetchAnswer.Serves (a : FetchAnswer) (readers : List ColumnReader) (count : Nat)
    (left : List (List (Option Bytes))) : Prop where
  cells : a.cells readers = left.take a.rows.length
  complete : a.finish.atEnd = true → left.length ≤ a.rows.length
  progress : a.finish.atEnd = false → a.finish.failed = false → 0 < count → 0 < a.rows.length

instance (a : FetchAnswer) (readers : List ColumnReader) (count : Nat)
    (left : List (List (Option Bytes))) : Decidable (a.Serves readers count left) :=
  decidable_of_iff
    (a.cells readers = left.take a.rows.length ∧
      (a.finish.atEnd = true → left.length ≤ a.rows.length) ∧
      (a.finish.atEnd = false → a.finish.failed = false → 0 < count → 0 < a.rows.length))
    ⟨fun h => ⟨h.1, h.2.1, h.2.2⟩, fun h => ⟨h.cells, h.complete, h.progress⟩⟩

section
variable (results : Nat → List (List (Option Bytes)))

/-- The store after a request that was answered so, if it gives such an answer. The `k`-th execute to
succeed has the result set `results k`. -/
def CursorStore.take (s : CursorStore) : Request → Answer → Option CursorStore
  | .execute stmt _ _, .reply (.ok _) =>
    some { s with
      executes := s.executes + 1
      cursors := Function.update s.cursors stmt.handle (some (results s.executes)) }
  | .fetch stmt count _, .rows a =>
    match s.cursors stmt.handle with
    | none => some s
    | some left =>
      if a.Serves stmt.columnReaders count left then
        some { s with
          cursors := Function.update s.cursors stmt.handle (some (left.drop a.rows.length))
          failed := s.failed || a.finish.failed }
      else none
  | .freeStatement stmt _, _ => some { s with cursors := Function.update s.cursors stmt none }
  | _, _ => some s

def CursorStore.see (s : CursorStore) : Event → Option CursorStore
  | .sent _ _ _ req answer => s.take results req answer
  | _ => some s

/-- The store by the requests since the history had `base` events, if its answers were these. -/
def CursorStore.since (base : Nat) (log : List Event) : Option CursorStore :=
  FastFirebird.since (CursorStore.see results) {} base log

/-- The server has answered as one that keeps cursors does. -/
def AsCursors (base : Nat) (log : List Event) : Prop := (CursorStore.since results base log).isSome

instance (base : Nat) (log : List Event) : Decidable (AsCursors results base log) :=
  inferInstanceAs (Decidable (_ = true))

end

variable {link : Link} {results : Nat → List (List (Option Bytes))} {base : Nat} {c : Conn}

theorem CursorStore.ofRequests : OfRequests (CursorStore.see results) := ⟨fun _ _ => rfl, fun _ _ _ _ => rfl⟩

theorem history_asCursors (hu : link.Undisturbed) : History link (AsCursors results base) :=
  history_since hu

/-- The cursors stand as they stood. -/
abbrev SameCursors (results : Nat → List (List (Option Bytes))) (base : Nat) : Conn → Conn → Prop :=
  SameSince (CursorStore.see results) {} base

theorem reads_sameCursors (hu : link.Undisturbed) : Reads link (SameCursors results base) :=
  reads_sameSince hu CursorStore.ofRequests

/-- The account so far: the cursors at the server, and nothing on its way. -/
structure Cursors (results : Nat → List (List (Option Bytes))) (base : Nat) (s : CursorStore)
    (l : List Packet) (c : Conn) : Prop where
  wire : Arriving l c
  begun : base ≤ c.log.length
  store : CursorStore.since results base c.log = some s

/-- A request is sent: its answer is on its way, and the account has it. -/
theorem Cursors.asked {s : CursorStore} (hsync : Sync [] c) (hbase : base ≤ c.log.length)
    (hs : CursorStore.since results base c.log = some s) {req : Request}
    (hk : AsCursors results base (c.send link false req).log) :
    ∃ s', s.take results req (link.server.answer req c.requests) = some s' ∧
      Cursors results base s' (link.server.packets req c.requests c.turn)
        (c.send link false req).flush := by
  obtain ⟨s₁, s', hs₁, htake, hs'⟩ := since_last hbase hk
  obtain rfl : s = s₁ := Option.some.inj (hs.symm.trans hs₁)
  refine ⟨s', htake, Arriving.send hsync req, ?_, ?_⟩
  · rw [Conn.flush_log]
    exact Nat.le_succ_of_le hbase
  · rw [Conn.flush_log]
    exact hs'

theorem take_fetch {s s' : CursorStore} {stmt : PreparedStatementInfo} {count : Nat}
    {behind : Option Nat} {a : FetchAnswer} {left : List (List (Option Bytes))}
    (hleft : s.cursors stmt.handle = some left)
    (h : s.take results (.fetch stmt count behind) (.rows a) = some s') :
    a.Serves stmt.columnReaders count left ∧
      s' = { s with
        cursors := Function.update s.cursors stmt.handle (some (left.drop a.rows.length))
        failed := s.failed || a.finish.failed } := by
  unfold CursorStore.take at h
  simp only [hleft] at h
  by_cases hserves : a.Serves stmt.columnReaders count left
  · rw [if_pos hserves] at h
    exact ⟨hserves, (Option.some.inj h).symm⟩
  · rw [if_neg hserves] at h
    cases h

/-- A fetch has brought the next `n` rows of `left`, and they are the last if it says so. -/
structure Fetched (results : Nat → List (List (Option Bytes))) (base : Nat) (s : CursorStore)
    (stmt : PreparedStatementInfo) (left : List (List (Option Bytes))) (count n : Nat)
    (b : FetchBatch) (c : Conn) : Prop where
  rows : decodeRows stmt.columnReaders (left.take n) = some b.rows
  within : n ≤ left.length
  complete : b.eof = true → left.length ≤ n
  progress : b.eof = false → 0 < count → 0 < n
  account : Cursors results base
    { s with cursors := Function.update s.cursors stmt.handle (some (left.drop n)) } [] c

/-- A fetch that has not brought them: a row cannot be decoded, or the server has failed. -/
def Spoiled (results : Nat → List (List (Option Bytes))) (base : Nat) (stmt : PreparedStatementInfo)
    (left : List (List (Option Bytes))) (c : Conn) : Prop :=
  decodeRows stmt.columnReaders left = none ∨
    ∃ s, CursorStore.since results base c.log = some s ∧ s.failed = true

theorem decodeRows_take {readers : List ColumnReader} {rows : List (List (Option Bytes))} {n : Nat}
    (h : decodeRows readers (rows.take n) = none) : decodeRows readers rows = none := by
  rw [← List.take_append_drop n rows, decodeRows_append, h]
  rfl

/-- What is on its way for a fetch is read as the next rows of the cursor. -/
theorem readFetchBatch_cursor (hu : link.Undisturbed) {s s' : CursorStore}
    {stmt : PreparedStatementInfo} {count n turn : Nat} {behind : Option Nat}
    {left : List (List (Option Bytes))} {fuel : Nat} (hleft : s.cursors stmt.handle = some left)
    (hfuel : left.length < fuel)
    (htake : s.take results (.fetch stmt count behind)
      (link.server.answer (.fetch stmt count behind) n) = some s')
    (h : Cursors results base s' (link.server.packets (.fetch stmt count behind) n turn) c) :
    Async.wp (readFetchBatch link stmt fuel [])
      ⟨fun b c' => ∃ k, Fetched results base s stmt left count k b c',
        fun _ c' => Spoiled results base stmt left c', fun _ => False⟩ c := by
  obtain ⟨hserves, hs'⟩ := take_fetch hleft htake
  generalize ha : link.server.fetch (.fetch stmt count behind) n = a at hserves hs'
  have hcells := hserves.cells
  have hshort : a.rows.length ≤ left.length := by
    have hlength := congrArg List.length hcells
    rw [FetchAnswer.cells, List.length_map, List.length_take] at hlength
    omega
  have hbatch := @readFetchBatch_arriving _ hu stmt n turn a.finish a.rows fuel (by omega) []
    (link.server.volunteers n) c (by
      rw [← ha, ← packets_fetch]
      exact h.wire)
  have := @reads_sameCursors link results base hu
  have halong : Async.Along (SameCursors results base) (readFetchBatch link stmt fuel []) :=
    along_readFetchBatch stmt fuel []
  refine Async.wp_mono (halong.with_wp hbatch) ?_ ?_ fun _ hpending => hpending.2
  · rintro b c' ⟨hsame, hfine, heof, hwire, ds, hds, hb⟩
    obtain ⟨hbase', hsince⟩ := hsame h.begun
    refine ⟨a.rows.length, ?_, hshort, ?_, ?_, hwire, hbase', ?_⟩
    · rw [← hcells, hds, hb, List.nil_append]
    · exact fun hend => hserves.complete (heof ▸ hend)
    · exact fun hmore => hserves.progress (heof ▸ hmore) hfine
    · refine hsince.trans (h.store.trans (congrArg some ?_))
      rw [hs', hfine, Bool.or_false]
  · rintro e c' ⟨hsame, hspoiled⟩
    obtain ⟨-, hsince⟩ := hsame h.begun
    rcases hspoiled with hfailed | hnone
    · refine Or.inr ⟨s', hsince.trans h.store, ?_⟩
      rw [hs', hfailed]
      exact Bool.or_true _
    · rw [show (⟨a.rows, a.finish⟩ : FetchAnswer).cells stmt.columnReaders = _ from hcells] at hnone
      exact Or.inl (decodeRows_take hnone)

end FastFirebird
