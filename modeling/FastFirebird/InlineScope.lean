import FastFirebird.InlineCache
import FastFirebird.Machine
import Mathlib.Data.List.Nodup

/-! The inline blobs of a connection, as its transactions begin and end. A server gives the handle
of a finished transaction to a new one, and its blob ids too. -/
namespace FastFirebird

/-- What has happened to the blobs; `serial` numbers the transactions of the server. -/
inductive BlobEvent where
  | began (serial txId : Nat)
  | ended (serial : Nat)
  | accepted (serial txId : Nat) (blobId data : Bytes)
  | took (txId : Nat) (blobId : Bytes) (bytes : Option Bytes)
  | purged (txId : Nat)
  deriving Repr, DecidableEq

/-- A payload, and the transaction that it was stored for. -/
structure Payload where
  serial : Nat
  data : Bytes
  deriving Repr, DecidableEq

/-- The payload last accepted for a blob of a transaction, if nobody has taken or purged it since;
the newest event comes first. -/
def lastAccepted (txId : Nat) (blobId : Bytes) : List BlobEvent → Option Payload
  | [] => none
  | .accepted serial tx blob data :: earlier =>
    if tx = txId ∧ blob = blobId then some ⟨serial, data⟩ else lastAccepted txId blobId earlier
  | .took tx blob _ :: earlier =>
    if tx = txId ∧ blob = blobId then none else lastAccepted txId blobId earlier
  | .purged tx :: earlier => if tx = txId then none else lastAccepted txId blobId earlier
  | _ :: earlier => lastAccepted txId blobId earlier

/-- A transaction that the server knows by its handle. -/
structure LiveTx where
  serial : Nat
  txId : Nat
  deriving Repr, DecidableEq

/-- A `Transaction` of the client, as far as it handles the cache. -/
structure CacheUser where
  currentHandle : Nat
  finished : Bool := false
  deriving Repr, DecidableEq

structure InlineScope where
  inline : InlineBlobCache
  live : List LiveTx := []
  serials : Nat := 0
  txs : List CacheUser := []
  trace : List BlobEvent := []
  deriving Repr, DecidableEq

inductive InlineEvent where
  /-- `startTransaction` has its response. -/
  | started (txId : Nat)
  /-- `op_inline_blob` -/
  | inlineBlob (txId : Nat) (blobId data : Bytes)
  /-- a lazy blob, a read-ahead or the rows of a result look into the cache -/
  | take (txId : Nat) (blobId : Bytes)
  /-- the call of `commit` or `rollback`, and its response -/
  | finish (tx : Nat)
  | finished (tx : Nat) (accepted : Bool)
  /-- `commitRetaining` and `rollbackRetaining` -/
  | retained (tx : Nat)
  /-- the two responses of `restart`, called by the user or by an automatic upgrade -/
  | restartFinished (tx : Nat) (accepted : Bool)
  | restartStarted (tx txId : Nat)
  deriving Repr, DecidableEq

namespace InlineScope

/-- The server's transaction of a handle. -/
def liveTx (txId : Nat) (s : InlineScope) : Option LiveTx := s.live.find? (·.txId = txId)

/-- The server begins a transaction, and gives it a handle that no live one has. -/
def begin (txId : Nat) (s : InlineScope) : InlineScope :=
  { s with
    live := ⟨s.serials, txId⟩ :: s.live
    serials := s.serials + 1
    trace := .began s.serials txId :: s.trace }

/-- The server ends a transaction. -/
def endTx (l : LiveTx) (s : InlineScope) : InlineScope :=
  { s with
    live := s.live.erase l
    trace := .ended l.serial :: s.trace }

def store (l : LiveTx) (blobId data : Bytes) (s : InlineScope) : InlineScope :=
  if s.inline.usedBytes + data.length > s.inline.capacity then s
  else
    { s with
      inline := s.inline.store l.txId blobId data
      trace := .accepted l.serial l.txId blobId data :: s.trace }

def take (txId : Nat) (blobId : Bytes) (s : InlineScope) : InlineScope :=
  let taken := s.inline.take txId blobId
  { s with
    inline := (taken.map (·.2)).getD s.inline
    trace := .took txId blobId (taken.map (·.1)) :: s.trace }

def clearTx (txId : Nat) (s : InlineScope) : InlineScope :=
  { s with
    inline := s.inline.clearTx txId
    trace := .purged txId :: s.trace }

def setTx (i : Nat) (t : CacheUser) (s : InlineScope) : InlineScope :=
  { s with txs := s.txs.set i t }

def step (s : InlineScope) : InlineEvent → Option InlineScope
  | .started txId =>
    if (s.liveTx txId).isSome then none
    else
      let s := s.begin txId
      some { s with txs := s.txs ++ [⟨txId, false⟩] }
  | .inlineBlob txId blobId data => (s.liveTx txId).map fun l => s.store l blobId data
  | .take txId blobId => some (s.take txId blobId)
  | .finish i =>
    s.txs[i]?.bind fun t =>
      if t.finished then none else some (s.setTx i { t with finished := true })
  | .finished i true =>
    -- the purge follows the response in the same turn
    s.txs[i]?.bind fun t =>
      if t.finished then
        (s.liveTx t.currentHandle).map fun l => (s.endTx l).clearTx t.currentHandle
      else none
  | .finished i false =>
    s.txs[i]?.bind fun t =>
      if t.finished then some (s.setTx i { t with finished := false }) else none
  | .retained i => s.txs[i]?.bind fun t => if t.finished then none else some s
  | .restartFinished i true =>
    s.txs[i]?.bind fun t => (s.liveTx t.currentHandle).map fun l => s.endTx l
  | .restartFinished i false => s.txs[i]?.map fun _ => s
  | .restartStarted i txId =>
    if (s.liveTx txId).isSome then none
    else s.txs[i]?.map fun _ => (s.begin txId).setTx i ⟨txId, false⟩

def machine (capacity : Nat) : Machine InlineScope InlineEvent :=
  ⟨(· = { inline := { capacity := capacity } }), step⟩

/-- A restart, or an automatic upgrade, finishes its transaction only when nobody has left a blob
of it in the cache. -/
def Emptied (s : InlineScope) : InlineEvent → Prop
  | .restartFinished i true => ∀ t, s.txs[i]? = some t →
      ∀ e ∈ s.inline.byTx, e.txId ≠ t.currentHandle
  | _ => True

end InlineScope

/-! The cache -/

namespace InlineBlobCache

def held (cache : InlineBlobCache) (txId : Nat) (blobId : Bytes) : Option InlineEntry :=
  cache.byTx.find? (holds txId blobId)

def sizes (byTx : List InlineEntry) : Nat := (byTx.map (·.data.length)).sum

/-- The books of the cache: what it uses is what it holds, one payload for each key. -/
structure Accounted (cache : InlineBlobCache) : Prop where
  used : cache.usedBytes = sizes cache.byTx
  room : cache.usedBytes ≤ cache.capacity
  once : (cache.byTx.map fun e => (e.txId, e.blobId)).Nodup

theorem holds_iff {txId : Nat} {blobId : Bytes} {e : InlineEntry} :
    holds txId blobId e = true ↔ e.txId = txId ∧ e.blobId = blobId := by
  unfold holds
  simp

theorem accounted_empty (capacity : Nat) : Accounted { capacity := capacity } :=
  ⟨rfl, Nat.zero_le _, List.nodup_nil⟩

theorem sizes_append (l l' : List InlineEntry) : sizes (l ++ l') = sizes l + sizes l' := by
  unfold sizes
  rw [List.map_append, List.sum_append]

theorem sizes_split (p : InlineEntry → Bool) (l : List InlineEntry) :
    sizes l = sizes (l.filter p) + sizes (l.filter fun e => !p e) := by
  induction l with
  | nil => rfl
  | cons e l ih =>
    have hcons (l : List InlineEntry) : sizes (e :: l) = e.data.length + sizes l := rfl
    cases hp : p e
    · rw [List.filter_cons_of_neg (by simp [hp]), List.filter_cons_of_pos (by simp [hp])]
      simp only [hcons]
      omega
    · rw [List.filter_cons_of_pos hp, List.filter_cons_of_neg (by simp [hp])]
      simp only [hcons]
      omega

theorem nodup_filter {l : List InlineEntry} (p : InlineEntry → Bool)
    (h : (l.map fun e => (e.txId, e.blobId)).Nodup) :
    ((l.filter p).map fun e => (e.txId, e.blobId)).Nodup :=
  h.sublist ((List.filter_sublist).map _)

/-- Under a key there is one payload at most, the one that is found. -/
theorem filter_holds {l : List InlineEntry} (h : (l.map fun e => (e.txId, e.blobId)).Nodup)
    (txId : Nat) (blobId : Bytes) :
    l.filter (holds txId blobId) = (l.find? (holds txId blobId)).toList := by
  induction l with
  | nil => rfl
  | cons e l ih =>
    rw [List.map_cons, List.nodup_cons] at h
    cases hp : holds txId blobId e
    · rw [List.filter_cons_of_neg (by simp [hp]), List.find?_cons_of_neg (by simp [hp])]
      exact ih h.2
    · rw [List.filter_cons_of_pos hp, List.find?_cons_of_pos hp]
      have hnone : l.filter (holds txId blobId) = [] := by
        apply List.filter_eq_nil_iff.mpr
        intro e' he' hp'
        apply h.1
        apply List.mem_map.mpr
        refine ⟨e', he', ?_⟩
        rw [holds_iff] at hp hp'
        rw [hp.1, hp.2, hp'.1, hp'.2]
      rw [hnone]
      rfl

theorem sizes_holds {cache : InlineBlobCache} (h : cache.Accounted) (txId : Nat) (blobId : Bytes) :
    sizes cache.byTx = ((cache.held txId blobId).map (·.data.length)).getD 0 +
      sizes (cache.byTx.filter fun e => !holds txId blobId e) := by
  have hfilter := filter_holds h.once txId blobId
  rw [sizes_split (holds txId blobId), hfilter]
  unfold held
  cases cache.byTx.find? (holds txId blobId) with
  | none => rfl
  | some e => rfl

theorem store_accounted {cache : InlineBlobCache} (h : cache.Accounted) (txId : Nat)
    (blobId data : Bytes) : (cache.store txId blobId data).Accounted := by
  unfold store
  split
  · exact h
  · rename_i hroom
    have hsizes := sizes_holds h txId blobId
    have hused := h.used
    have hnew : sizes [⟨txId, blobId, data⟩] = data.length := Nat.add_zero _
    unfold held at hsizes
    refine ⟨?_, ?_, ?_⟩
    · show cache.usedBytes - _ + data.length = sizes (_ ++ _)
      rw [sizes_append, hnew]
      omega
    · show cache.usedBytes - _ + data.length ≤ cache.capacity
      omega
    · rw [List.map_append, List.nodup_append]
      refine ⟨nodup_filter _ h.once, List.nodup_cons.mpr ⟨List.not_mem_nil, List.nodup_nil⟩, ?_⟩
      intro key hkey key' hkey' heq
      obtain ⟨e, he, rfl⟩ := List.mem_map.mp hkey
      obtain rfl := List.mem_singleton.mp hkey'
      have hother := (List.mem_filter.mp he).2
      have hkeys := Prod.mk.inj heq
      rw [Bool.not_eq_true', ← Bool.not_eq_true, holds_iff] at hother
      exact hother hkeys

theorem take_accounted {cache cache' : InlineBlobCache} (h : cache.Accounted) {txId : Nat}
    {blobId bytes : Bytes} (ht : cache.take txId blobId = some (bytes, cache')) :
    cache'.Accounted := by
  obtain ⟨e, he, heq⟩ := Option.map_eq_some_iff.mp ht
  have hsizes := sizes_holds h txId blobId
  unfold held at hsizes
  rw [he, Option.map_some, Option.getD_some] at hsizes
  have hused := h.used
  have hroom := h.room
  obtain rfl := (Prod.mk.inj heq).2
  refine ⟨?_, ?_, nodup_filter _ h.once⟩
  · show cache.usedBytes - e.data.length = sizes (cache.byTx.filter fun e => !holds txId blobId e)
    omega
  · show cache.usedBytes - e.data.length ≤ cache.capacity
    omega

theorem clearTx_accounted {cache : InlineBlobCache} (h : cache.Accounted) (txId : Nat) :
    (cache.clearTx txId).Accounted := by
  have hsizes := sizes_split (fun e => e.txId == txId) cache.byTx
  have hused := h.used
  have hroom := h.room
  refine ⟨?_, ?_, nodup_filter _ h.once⟩
  · show cache.usedBytes - sizes (cache.byTx.filter (·.txId == txId)) = sizes _
    have hrest : cache.byTx.filter (·.txId != txId) =
        cache.byTx.filter fun e => !(e.txId == txId) := rfl
    show _ = sizes (cache.byTx.filter (·.txId != txId))
    rw [hrest]
    omega
  · show cache.usedBytes - _ ≤ cache.capacity
    omega

/-! What is found under a key afterwards -/

theorem find_filter_holds (l : List InlineEntry) (txId tx : Nat) (blobId blob : Bytes) :
    (l.filter fun e => !holds txId blobId e).find? (holds tx blob) =
      if tx = txId ∧ blob = blobId then none else l.find? (holds tx blob) := by
  rw [List.find?_filter]
  split
  · rename_i hkey
    apply List.find?_eq_none.mpr
    intro e _ hboth
    rw [hkey.1, hkey.2] at hboth
    simp at hboth
  · rename_i hkey
    apply congrArg (fun p => List.find? p l)
    funext e
    cases hp : holds tx blob e
    · simp
    · have hother : holds txId blobId e = false := by
        rw [← Bool.not_eq_true, holds_iff]
        rw [holds_iff] at hp
        intro hsame
        exact hkey ⟨hp.1.symm.trans hsame.1, hp.2.symm.trans hsame.2⟩
      rw [hother]
      rfl

theorem held_store {cache : InlineBlobCache} {txId : Nat} {blobId data : Bytes}
    (hroom : ¬ cache.usedBytes + data.length > cache.capacity) (tx : Nat) (blob : Bytes) :
    (cache.store txId blobId data).held tx blob =
      if tx = txId ∧ blob = blobId then some ⟨txId, blobId, data⟩ else cache.held tx blob := by
  unfold store
  rw [if_neg hroom]
  unfold held
  dsimp only
  rw [List.find?_append, find_filter_holds]
  split
  · rename_i hkey
    have hholds : holds tx blob ⟨txId, blobId, data⟩ = true :=
      holds_iff.mpr ⟨hkey.1.symm, hkey.2.symm⟩
    rw [Option.none_or, List.find?_cons_of_pos hholds]
  · rename_i hkey
    have hholds : ¬ holds tx blob ⟨txId, blobId, data⟩ = true := by
      rw [holds_iff]
      intro h
      exact hkey ⟨h.1.symm, h.2.symm⟩
    rw [List.find?_cons_of_neg hholds, List.find?_nil, Option.or_none]

theorem take_eq (cache : InlineBlobCache) (txId : Nat) (blobId : Bytes) :
    (cache.take txId blobId).map (·.1) =
      (cache.held txId blobId).map fun e => parseSegmentFrames e.data := by
  unfold take held
  rw [Option.map_map]
  rfl

theorem held_take {cache cache' : InlineBlobCache} {txId : Nat} {blobId bytes : Bytes}
    (h : cache.take txId blobId = some (bytes, cache')) (tx : Nat) (blob : Bytes) :
    cache'.held tx blob =
      if tx = txId ∧ blob = blobId then none else cache.held tx blob := by
  obtain ⟨e, -, heq⟩ := Option.map_eq_some_iff.mp h
  obtain rfl := (Prod.mk.inj heq).2
  exact find_filter_holds cache.byTx txId tx blobId blob

theorem held_clearTx (cache : InlineBlobCache) (txId tx : Nat) (blob : Bytes) :
    (cache.clearTx txId).held tx blob = if tx = txId then none else cache.held tx blob := by
  unfold clearTx held
  dsimp only
  rw [List.find?_filter]
  split
  · rename_i htx
    apply List.find?_eq_none.mpr
    intro e _ hboth
    rw [decide_eq_true_eq, holds_iff, bne_iff_ne, htx] at hboth
    exact hboth.1 hboth.2.1
  · rename_i htx
    apply congrArg (fun p => List.find? p cache.byTx)
    funext e
    cases hp : holds tx blob e
    · simp
    · have hother : (e.txId != txId) = true := by
        rw [bne_iff_ne, (holds_iff.mp hp).1]
        exact htx
      rw [hother]
      rfl

end InlineBlobCache

/-! The books along a run -/

namespace InlineScope

variable {s s' : InlineScope} {capacity : Nat}

/-- The cache holds what was last accepted. -/
structure Booked (s : InlineScope) : Prop where
  accounted : s.inline.Accounted
  held : ∀ txId blobId, (s.inline.held txId blobId).map (·.data) =
    (lastAccepted txId blobId s.trace).map (·.data)

/-- The live transactions have a handle and a number each of their own, and none has ended. -/
structure Known (s : InlineScope) : Prop where
  ids : (s.live.map (·.txId)).Nodup
  serials : (s.live.map (·.serial)).Nodup
  fresh : ∀ l ∈ s.live, l.serial < s.serials
  past : ∀ serial, .ended serial ∈ s.trace → serial < s.serials
  running : ∀ l ∈ s.live, .ended l.serial ∉ s.trace

/-- A payload in the cache is one of a live transaction. -/
def Owned (s : InlineScope) : Prop :=
  ∀ txId blobId p, lastAccepted txId blobId s.trace = some p → ⟨p.serial, txId⟩ ∈ s.live

/-- No payload was taken behind the end of its transaction. -/
def TakesInTime (trace : List BlobEvent) : Prop :=
  ∀ txId blobId bytes earlier, (.took txId blobId bytes :: earlier) <:+ trace →
    ∀ p ∈ lastAccepted txId blobId earlier, .ended p.serial ∉ earlier

theorem liveTx_some {txId : Nat} {l : LiveTx} (h : s.liveTx txId = some l) :
    l ∈ s.live ∧ l.txId = txId := by
  have hfound := List.find?_some h
  exact ⟨List.mem_of_find?_eq_some h, of_decide_eq_true hfound⟩

theorem liveTx_none {txId : Nat} (h : ¬ (s.liveTx txId).isSome) :
    ∀ l ∈ s.live, l.txId ≠ txId := by
  rw [Option.not_isSome_iff_eq_none] at h
  intro l hl heq
  exact absurd (decide_eq_true heq) (List.find?_eq_none.mp h l hl)

theorem booked_store (h : s.Booked) (l : LiveTx) (blobId data : Bytes) :
    (s.store l blobId data).Booked := by
  unfold store
  split
  · exact h
  · rename_i hroom
    refine ⟨InlineBlobCache.store_accounted h.accounted _ _ _, ?_⟩
    intro tx blob
    have hheld := @InlineBlobCache.held_store _ l.txId blobId _ hroom tx blob
    show ((s.inline.store l.txId blobId data).held tx blob).map _ = _
    rw [hheld, lastAccepted]
    by_cases hkey : tx = l.txId ∧ blob = blobId
    · rw [if_pos hkey, if_pos ⟨hkey.1.symm, hkey.2.symm⟩]
      rfl
    · rw [if_neg hkey, if_neg fun hsame => hkey ⟨hsame.1.symm, hsame.2.symm⟩]
      exact h.held tx blob

theorem booked_take (h : s.Booked) (txId : Nat) (blobId : Bytes) : (s.take txId blobId).Booked := by
  unfold take
  cases ht : s.inline.take txId blobId with
  | none =>
    have hnone : s.inline.held txId blobId = none := by
      have heq := InlineBlobCache.take_eq s.inline txId blobId
      rw [ht] at heq
      exact Option.map_eq_none_iff.mp heq.symm
    refine ⟨h.accounted, ?_⟩
    intro tx blob
    show (s.inline.held tx blob).map _ = _
    rw [lastAccepted]
    split
    · rename_i hkey
      rw [← hkey.1, ← hkey.2, hnone]
      rfl
    · exact h.held tx blob
  | some taken =>
    obtain ⟨bytes, cache'⟩ := taken
    refine ⟨InlineBlobCache.take_accounted h.accounted ht, ?_⟩
    intro tx blob
    have hheld := InlineBlobCache.held_take ht tx blob
    show (cache'.held tx blob).map _ = _
    rw [hheld, lastAccepted]
    by_cases hkey : tx = txId ∧ blob = blobId
    · rw [if_pos hkey, if_pos ⟨hkey.1.symm, hkey.2.symm⟩]
      rfl
    · rw [if_neg hkey, if_neg fun hsame => hkey ⟨hsame.1.symm, hsame.2.symm⟩]
      exact h.held tx blob

theorem booked_clearTx (h : s.Booked) (txId : Nat) : (s.clearTx txId).Booked := by
  refine ⟨InlineBlobCache.clearTx_accounted h.accounted txId, ?_⟩
  intro tx blob
  show ((s.inline.clearTx txId).held tx blob).map _ = (lastAccepted tx blob (_ :: s.trace)).map _
  rw [InlineBlobCache.held_clearTx, lastAccepted]
  by_cases htx : tx = txId
  · rw [if_pos htx, if_pos htx.symm]
    rfl
  · rw [if_neg htx, if_neg fun h => htx h.symm]
    exact h.held tx blob

theorem booked_begin (h : s.Booked) (txId : Nat) : (s.begin txId).Booked :=
  ⟨h.accounted, h.held⟩

theorem booked_endTx (h : s.Booked) (l : LiveTx) : (s.endTx l).Booked := ⟨h.accounted, h.held⟩

theorem known_begin (h : s.Known) {txId : Nat} (hfree : ∀ l ∈ s.live, l.txId ≠ txId) :
    (s.begin txId).Known := by
  refine ⟨?_, ?_, ?_, ?_, ?_⟩
  · apply List.nodup_cons.mpr
    refine ⟨?_, h.ids⟩
    intro hmem
    obtain ⟨l, hl, heq⟩ := List.mem_map.mp hmem
    exact hfree l hl heq
  · apply List.nodup_cons.mpr
    refine ⟨?_, h.serials⟩
    intro hmem
    obtain ⟨l, hl, heq⟩ := List.mem_map.mp hmem
    have hlt := h.fresh l hl
    have hsame : l.serial = s.serials := heq
    omega
  · intro l hl
    show l.serial < s.serials + 1
    rcases List.mem_cons.mp hl with rfl | hl
    · exact Nat.lt_succ_self _
    · exact Nat.lt_succ_of_lt (h.fresh l hl)
  · intro serial hmem
    have hpast : .ended serial ∈ s.trace := by simpa [begin] using hmem
    exact Nat.lt_succ_of_lt (h.past serial hpast)
  · intro l hl hmem
    have hpast : .ended l.serial ∈ s.trace := by simpa [begin] using hmem
    rcases List.mem_cons.mp hl with rfl | hl
    · exact Nat.lt_irrefl _ (h.past _ hpast)
    · exact h.running l hl hpast

theorem serial_ne {l l' : LiveTx} (h : s.Known) (hl : l ∈ s.live) (hl' : l' ∈ s.live)
    (hne : l' ≠ l) : l'.serial ≠ l.serial := by
  intro heq
  exact hne (List.inj_on_of_nodup_map h.serials hl' hl heq)

theorem mem_erase_live {l l' : LiveTx} (h : s.Known) :
    l' ∈ s.live.erase l ↔ l' ≠ l ∧ l' ∈ s.live :=
  (List.Nodup.of_map _ h.serials).mem_erase_iff

theorem known_endTx {l : LiveTx} (h : s.Known) (hl : l ∈ s.live) : (s.endTx l).Known := by
  refine ⟨h.ids.sublist (List.erase_sublist.map _), h.serials.sublist (List.erase_sublist.map _),
    ?_, ?_, ?_⟩
  · intro l' hl'
    exact h.fresh l' (List.mem_of_mem_erase hl')
  · intro serial hmem
    rcases List.mem_cons.mp hmem with heq | hmem
    · obtain rfl := BlobEvent.ended.inj heq
      exact h.fresh l hl
    · exact h.past serial hmem
  · intro l' hl' hmem
    obtain ⟨hne, hlive⟩ := (mem_erase_live h).mp hl'
    rcases List.mem_cons.mp hmem with heq | hmem
    · exact serial_ne h hl hlive hne (BlobEvent.ended.inj heq)
    · exact h.running l' hlive hmem

/-- An event that is no end leaves the live transactions as they are. -/
theorem known_trace {e : BlobEvent} {cache : InlineBlobCache} (h : s.Known)
    (he : ∀ serial, e ≠ .ended serial) :
    ({ s with inline := cache, trace := e :: s.trace } : InlineScope).Known := by
  have hold {serial : Nat} (hmem : .ended serial ∈ e :: s.trace) : .ended serial ∈ s.trace := by
    rcases List.mem_cons.mp hmem with heq | hmem
    · exact absurd heq.symm (he serial)
    · exact hmem
  exact ⟨h.ids, h.serials, h.fresh, fun serial hmem => h.past serial (hold hmem),
    fun l hl hmem => h.running l hl (hold hmem)⟩

theorem known_store {l : LiveTx} (h : s.Known) (blobId data : Bytes) :
    (s.store l blobId data).Known := by
  unfold store
  split
  · exact h
  · exact known_trace h (fun _ => BlobEvent.noConfusion)

theorem known_take (h : s.Known) (txId : Nat) (blobId : Bytes) : (s.take txId blobId).Known :=
  known_trace h (fun _ => BlobEvent.noConfusion)

theorem known_clearTx (h : s.Known) (txId : Nat) : (s.clearTx txId).Known :=
  known_trace h (fun _ => BlobEvent.noConfusion)

/-! Who a payload belongs to -/

theorem owned_begin (h : s.Owned) (txId : Nat) : (s.begin txId).Owned := by
  intro tx blob p hp
  exact List.mem_cons_of_mem _ (h tx blob p hp)

theorem owned_store (h : s.Owned) {l : LiveTx} (hl : l ∈ s.live) (blobId data : Bytes) :
    (s.store l blobId data).Owned := by
  unfold store
  split
  · exact h
  · intro tx blob p hp
    dsimp only at hp
    rw [lastAccepted] at hp
    split at hp
    · rename_i hkey
      obtain rfl := Option.some.inj hp
      rw [← hkey.1]
      exact hl
    · exact h tx blob p hp

theorem owned_take (h : s.Owned) (txId : Nat) (blobId : Bytes) : (s.take txId blobId).Owned := by
  intro tx blob p hp
  unfold take at hp
  dsimp only at hp
  rw [lastAccepted] at hp
  split at hp
  · cases hp
  · exact h tx blob p hp

theorem owned_finished (h : s.Owned) (hk : s.Known) (l : LiveTx) :
    ((s.endTx l).clearTx l.txId).Owned := by
  intro tx blob p hp
  have hp : (if l.txId = tx then none else lastAccepted tx blob s.trace) = some p := hp
  split at hp
  · cases hp
  · rename_i htx
    apply (mem_erase_live hk).mpr
    refine ⟨?_, h tx blob p hp⟩
    rintro rfl
    exact htx rfl

theorem owned_restartFinished (h : s.Owned) (hk : s.Known) (hb : s.Booked) {l : LiveTx}
    (hempty : ∀ e ∈ s.inline.byTx, e.txId ≠ l.txId) : (s.endTx l).Owned := by
  intro tx blob p hp
  have hp : lastAccepted tx blob s.trace = some p := hp
  have hheld := hb.held tx blob
  rw [hp, Option.map_some] at hheld
  obtain ⟨e, he, -⟩ := Option.map_eq_some_iff.mp hheld
  have hkey := List.find?_some he
  rw [InlineBlobCache.holds_iff] at hkey
  have hother := hempty e (List.mem_of_find?_eq_some he)
  apply (mem_erase_live hk).mpr
  refine ⟨?_, h tx blob p hp⟩
  rintro rfl
  exact hother hkey.1

theorem takesInTime_cons {e : BlobEvent} {trace : List BlobEvent} (h : TakesInTime trace)
    (he : ∀ txId blobId bytes, e ≠ .took txId blobId bytes) : TakesInTime (e :: trace) := by
  intro txId blobId bytes earlier hsuffix
  rcases List.suffix_cons_iff.mp hsuffix with heq | hsuffix
  · exact absurd (List.cons.inj heq).1.symm (he txId blobId bytes)
  · exact h txId blobId bytes earlier hsuffix

theorem takesInTime_store (h : TakesInTime s.trace) (l : LiveTx) (blobId data : Bytes) :
    TakesInTime (s.store l blobId data).trace := by
  unfold store
  split
  · exact h
  · exact takesInTime_cons h fun _ _ _ => BlobEvent.noConfusion

theorem takesInTime_take (h : TakesInTime s.trace) (ho : s.Owned) (hk : s.Known) (txId : Nat)
    (blobId : Bytes) : TakesInTime (s.take txId blobId).trace := by
  intro tx blob bytes earlier hsuffix p hp
  rcases List.suffix_cons_iff.mp hsuffix with heq | hsuffix
  · have hearlier : earlier = s.trace := (List.cons.inj heq).2
    rw [hearlier] at hp ⊢
    exact hk.running _ (ho tx blob p hp)
  · exact h tx blob bytes earlier hsuffix p hp

/-- What a step does, but for the client's transactions. -/
theorem step_cases {e : InlineEvent} (hs : s.step e = some s') :
    ∃ b txs, s' = { b with txs := txs } ∧
      (b = s ∨ (∃ txId, (∀ l ∈ s.live, l.txId ≠ txId) ∧ b = s.begin txId) ∨
        (∃ l ∈ s.live, ∃ blobId data, b = s.store l blobId data) ∨
        (∃ txId blobId, b = s.take txId blobId) ∨
        (∃ l ∈ s.live, b = (s.endTx l).clearTx l.txId) ∨
        ∃ i t, ∃ l ∈ s.live, e = .restartFinished i true ∧ s.txs[i]? = some t ∧
          l.txId = t.currentHandle ∧ b = s.endTx l) := by
  cases e with
  | started txId =>
    simp only [step] at hs
    split at hs
    · cases hs
    · rename_i hnone
      obtain rfl := Option.some.inj hs
      exact ⟨s.begin txId, _, rfl, .inr (.inl ⟨txId, liveTx_none hnone, rfl⟩)⟩
  | inlineBlob txId blobId data =>
    obtain ⟨l, hl, rfl⟩ := Option.map_eq_some_iff.mp hs
    exact ⟨_, _, rfl, .inr (.inr (.inl ⟨l, (liveTx_some hl).1, blobId, data, rfl⟩))⟩
  | take txId blobId =>
    obtain rfl := Option.some.inj hs
    exact ⟨_, _, rfl, .inr (.inr (.inr (.inl ⟨txId, blobId, rfl⟩)))⟩
  | finish i =>
    obtain ⟨t, ht, hs⟩ := Option.bind_eq_some_iff.mp hs
    split at hs
    · cases hs
    · obtain rfl := Option.some.inj hs
      exact ⟨s, _, rfl, .inl rfl⟩
  | finished i accepted =>
    cases accepted with
    | true =>
      obtain ⟨t, ht, hs⟩ := Option.bind_eq_some_iff.mp hs
      split at hs
      · obtain ⟨l, hl, rfl⟩ := Option.map_eq_some_iff.mp hs
        obtain ⟨hlive, hid⟩ := liveTx_some hl
        rw [← hid]
        exact ⟨_, _, rfl, .inr (.inr (.inr (.inr (.inl ⟨l, hlive, rfl⟩))))⟩
      · cases hs
    | false =>
      obtain ⟨t, ht, hs⟩ := Option.bind_eq_some_iff.mp hs
      split at hs
      · obtain rfl := Option.some.inj hs
        exact ⟨s, _, rfl, .inl rfl⟩
      · cases hs
  | retained i =>
    obtain ⟨t, ht, hs⟩ := Option.bind_eq_some_iff.mp hs
    split at hs
    · cases hs
    · obtain rfl := Option.some.inj hs
      exact ⟨s, _, rfl, .inl rfl⟩
  | restartFinished i accepted =>
    cases accepted with
    | true =>
      obtain ⟨t, ht, hs⟩ := Option.bind_eq_some_iff.mp hs
      obtain ⟨l, hl, rfl⟩ := Option.map_eq_some_iff.mp hs
      obtain ⟨hlive, hid⟩ := liveTx_some hl
      exact ⟨_, _, rfl, .inr (.inr (.inr (.inr (.inr ⟨i, t, l, hlive, rfl, ht, hid, rfl⟩))))⟩
    | false =>
      obtain ⟨t, ht, rfl⟩ := Option.map_eq_some_iff.mp hs
      exact ⟨s, _, rfl, .inl rfl⟩
  | restartStarted i txId =>
    simp only [step] at hs
    split at hs
    · cases hs
    · rename_i hnone
      obtain ⟨t, ht, rfl⟩ := Option.map_eq_some_iff.mp hs
      exact ⟨s.begin txId, _, rfl, .inr (.inl ⟨txId, liveTx_none hnone, rfl⟩)⟩

theorem capacity_step {e : InlineEvent} (hs : s.step e = some s') :
    s'.inline.capacity = s.inline.capacity := by
  obtain ⟨b, txs, rfl, hb⟩ := step_cases hs
  show b.inline.capacity = s.inline.capacity
  rcases hb with rfl | ⟨txId, hfree, rfl⟩ | ⟨l, hl, blobId, data, rfl⟩ | ⟨txId, blobId, rfl⟩ |
    ⟨l, hl, rfl⟩ | ⟨i, t, l, hl, -, -, -, rfl⟩
  · rfl
  · rfl
  · unfold store InlineBlobCache.store
    split <;> rfl
  · unfold take InlineBlobCache.take
    cases s.inline.byTx.find? (InlineBlobCache.holds txId blobId) <;> rfl
  · rfl
  · rfl

theorem booked_step {e : InlineEvent} (h : s.Booked) (hk : s.Known) (hs : s.step e = some s') :
    s'.Booked ∧ s'.Known := by
  obtain ⟨b, txs, rfl, hb⟩ := step_cases hs
  have hboth : b.Booked ∧ b.Known := by
    rcases hb with rfl | ⟨txId, hfree, rfl⟩ | ⟨l, hl, blobId, data, rfl⟩ | ⟨txId, blobId, rfl⟩ |
      ⟨l, hl, rfl⟩ | ⟨i, t, l, hl, -, -, -, rfl⟩
    · exact ⟨h, hk⟩
    · exact ⟨booked_begin h txId, known_begin hk hfree⟩
    · exact ⟨booked_store h l blobId data, known_store hk blobId data⟩
    · exact ⟨booked_take h txId blobId, known_take hk txId blobId⟩
    · exact ⟨booked_clearTx (booked_endTx h l) _, known_clearTx (known_endTx hk hl) _⟩
    · exact ⟨booked_endTx h l, known_endTx hk hl⟩
  obtain ⟨hb, hk⟩ := hboth
  exact ⟨⟨hb.accounted, hb.held⟩, ⟨hk.ids, hk.serials, hk.fresh, hk.past, hk.running⟩⟩

theorem owned_step {e : InlineEvent} (h : s.Owned ∧ TakesInTime s.trace) (hb : s.Booked)
    (hk : s.Known) (hok : s.Emptied e) (hs : s.step e = some s') :
    s'.Owned ∧ TakesInTime s'.trace := by
  obtain ⟨b, txs, rfl, hcases⟩ := step_cases hs
  show b.Owned ∧ TakesInTime b.trace
  rcases hcases with rfl | ⟨txId, hfree, rfl⟩ | ⟨l, hl, blobId, data, rfl⟩ | ⟨txId, blobId, rfl⟩ |
    ⟨l, hl, rfl⟩ | ⟨i, t, l, hl, rfl, ht, hid, rfl⟩
  · exact h
  · exact ⟨owned_begin h.1 txId, takesInTime_cons h.2 fun _ _ _ => BlobEvent.noConfusion⟩
  · exact ⟨owned_store h.1 hl blobId data, takesInTime_store h.2 l blobId data⟩
  · exact ⟨owned_take h.1 txId blobId, takesInTime_take h.2 h.1 hk txId blobId⟩
  · have hended := takesInTime_cons (e := .ended l.serial) h.2 fun _ _ _ => BlobEvent.noConfusion
    exact ⟨owned_finished h.1 hk l, takesInTime_cons hended fun _ _ _ => BlobEvent.noConfusion⟩
  · refine ⟨owned_restartFinished h.1 hk hb ?_,
      takesInTime_cons h.2 fun _ _ _ => BlobEvent.noConfusion⟩
    rw [hid]
    exact hok t ht

theorem reachable_booked {ok : InlineScope → InlineEvent → Prop}
    (h : (machine capacity).Reachable ok s) : s.Booked ∧ s.Known := by
  refine h.invariant (fun s => s.Booked ∧ s.Known) ?_
    fun s e s' hb _ hs => booked_step hb.1 hb.2 hs
  rintro s rfl
  refine ⟨⟨InlineBlobCache.accounted_empty capacity, fun _ _ => rfl⟩,
    ⟨List.nodup_nil, List.nodup_nil, ?_, ?_, ?_⟩⟩
  · exact fun l hl => absurd hl List.not_mem_nil
  · exact fun serial hmem => absurd hmem List.not_mem_nil
  · exact fun l hl => absurd hl List.not_mem_nil

theorem reachable_capacity {ok : InlineScope → InlineEvent → Prop}
    (h : (machine capacity).Reachable ok s) : s.inline.capacity = capacity := by
  refine h.invariant (·.inline.capacity = capacity) ?_ fun s e s' hc _ hs => ?_
  · rintro s rfl
    rfl
  · exact (capacity_step hs).trans hc

theorem reachable_owned (h : (machine capacity).Reachable Emptied s) :
    s.Owned ∧ TakesInTime s.trace := by
  have hall : (s.Booked ∧ s.Known) ∧ s.Owned ∧ TakesInTime s.trace := by
    refine h.invariant (fun s => (s.Booked ∧ s.Known) ∧ s.Owned ∧ TakesInTime s.trace) ?_ ?_
    · rintro s rfl
      refine ⟨@reachable_booked _ _ Emptied (.init rfl), ?_, ?_⟩
      · intro tx blob p hp
        cases hp
      · intro tx blob bytes earlier hsuffix
        cases List.suffix_nil.mp hsuffix
    · intro s e s' h hok hs
      exact ⟨booked_step h.1.1 h.1.2 hs, owned_step h.2 h.1.1 h.1.2 hok hs⟩
  exact hall.2

/-- The books of the cache are right in every run, and a `take` hands out what was last accepted
under its key and removes it. Where no restart finishes a transaction with a blob of it in the
cache, what is handed out is never that of a transaction which has ended. -/
theorem inline_cache_scoped (capacity : Nat) (s : InlineScope)
    (h : (machine capacity).Reachable (fun _ _ => True) s) :
    (s.inline.usedBytes = (s.inline.byTx.map (·.data.length)).sum ∧
      s.inline.usedBytes ≤ capacity) ∧
    (∀ txId blobId,
      (s.inline.take txId blobId).map (·.1) =
          (lastAccepted txId blobId s.trace).map (parseSegmentFrames ·.data) ∧
        (s.take txId blobId).inline.take txId blobId = none) ∧
    ((machine capacity).Reachable Emptied s →
      ∀ txId blobId bytes earlier, (.took txId blobId bytes :: earlier) <:+ s.trace →
        ∀ p ∈ lastAccepted txId blobId earlier, .ended p.serial ∉ earlier) := by
  obtain ⟨hb, -⟩ := reachable_booked h
  have hroom := hb.accounted.room
  rw [reachable_capacity h] at hroom
  refine ⟨⟨hb.accounted.used, hroom⟩, ?_, fun hclean => (reachable_owned hclean).2⟩
  intro txId blobId
  constructor
  · have hdata := congrArg (Option.map parseSegmentFrames) (hb.held txId blobId)
    rw [Option.map_map, Option.map_map] at hdata
    rw [InlineBlobCache.take_eq]
    exact hdata
  · have htaken := (booked_take hb txId blobId).held txId blobId
    have hlast : lastAccepted txId blobId (s.take txId blobId).trace = none := by
      unfold take
      dsimp only
      rw [lastAccepted, if_pos ⟨rfl, rfl⟩]
    rw [hlast] at htaken
    have hnone : (s.take txId blobId).inline.held txId blobId = none :=
      Option.map_eq_none_iff.mp htaken
    have heq := InlineBlobCache.take_eq (s.take txId blobId).inline txId blobId
    rw [hnone] at heq
    exact Option.map_eq_none_iff.mp heq

/-- A blob of the first transaction, read before it restarts, and the handle used again. -/
def restartedRun : InlineScope where
  inline := { capacity := 16 }
  live := [⟨1, 5⟩]
  serials := 2
  txs := [⟨5, false⟩]
  trace := [.began 1 5, .ended 0, .took 5 [1] (some (parseSegmentFrames [1, 0, 65])),
    .accepted 0 5 [1] [1, 0, 65], .began 0 5]

theorem inline_cache_scoped_restart :
    restartedRun.inline.usedBytes ≤ 16 ∧
      ∀ txId blobId bytes earlier, (.took txId blobId bytes :: earlier) <:+ restartedRun.trace →
        ∀ p ∈ lastAccepted txId blobId earlier, .ended p.serial ∉ earlier := by
  have h₀ : (machine 16).Reachable Emptied { inline := { capacity := 16 } } := .init rfl
  have h₁ := h₀.step (e := InlineEvent.started 5) trivial rfl
  have h₂ := h₁.step (e := InlineEvent.inlineBlob 5 [1] [1, 0, 65]) trivial rfl
  have h₃ := h₂.step (e := InlineEvent.take 5 [1]) trivial rfl
  have h₄ := h₃.step (e := InlineEvent.restartFinished 0 true)
    (fun t _ e he => absurd he List.not_mem_nil) rfl
  have hrun : (machine 16).Reachable Emptied restartedRun :=
    h₄.step (e := InlineEvent.restartStarted 0 5) trivial rfl
  have hscoped := inline_cache_scoped 16 restartedRun (hrun.mono fun _ _ _ => trivial)
  exact ⟨hscoped.1.2, hscoped.2.2 hrun⟩

/-- Nobody reads the blob before the restart, and the next transaction has the same handle. -/
def staleRun : List InlineEvent :=
  [.started 5, .inlineBlob 5 [1] [1, 0, 65], .restartFinished 0 true, .restartStarted 0 5,
    .take 5 [1]]

theorem stale_blob_returned :
    ¬ ∀ s : InlineScope, (machine 16).Reachable (fun _ _ => True) s →
      ∀ txId blobId bytes earlier, (.took txId blobId bytes :: earlier) <:+ s.trace →
        ∀ p ∈ lastAccepted txId blobId earlier, .ended p.serial ∉ earlier := by
  intro hall
  have hrun : ∃ s, (machine 16).run { inline := { capacity := 16 } } staleRun = some s ∧
      s.trace = [.took 5 [1] (some (parseSegmentFrames [1, 0, 65])), .began 1 5, .ended 0,
        .accepted 0 5 [1] [1, 0, 65], .began 0 5] := ⟨_, rfl, rfl⟩
  obtain ⟨s, hrun, htrace⟩ := hrun
  have hsuffix : .took 5 [1] (some (parseSegmentFrames [1, 0, 65])) :: [BlobEvent.began 1 5,
      .ended 0, .accepted 0 5 [1] [1, 0, 65], .began 0 5] <:+ s.trace := by
    exact ⟨[], htrace.symm⟩
  have hs := hall s (Machine.Reachable.run (.init rfl) hrun) _ _ _ _ hsuffix ⟨0, [1, 0, 65]⟩
    (by decide)
  exact hs (by decide)

end InlineScope

end FastFirebird
