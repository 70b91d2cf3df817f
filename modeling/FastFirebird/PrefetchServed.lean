import FastFirebird.Prefetcher

/-! What `take` promises: an entry that is claimed is served, and the bytes in use are the bytes
held. -/
namespace FastFirebird.Prefetch

/-! The bytes that are held -/

def Entry.weight (e : Entry) : Nat := if e.tracked then e.chunks.flatten.length else 0

def heldBytes (queue : List Entry) : Nat := (queue.map Entry.weight).sum

theorem heldBytes_set {queue : List Entry} {k : Nat} {e : Entry} (h : queue[k]? = some e)
    (e' : Entry) : heldBytes (queue.set k e') + e.weight = heldBytes queue + e'.weight := by
  induction queue generalizing k with
  | nil => cases h
  | cons x queue ih =>
    have hcons (y : Entry) (l : List Entry) : heldBytes (y :: l) = y.weight + heldBytes l := rfl
    cases k with
    | zero =>
      obtain rfl := Option.some.inj h
      rw [List.set_cons_zero, hcons, hcons]
      omega
    | succ k =>
      have hrest := ih (k := k) h
      rw [List.set_cons_succ, hcons, hcons]
      omega

theorem heldBytes_append (queue : List Entry) (e : Entry) :
    heldBytes (queue ++ [e]) = heldBytes queue + e.weight := by
  unfold heldBytes
  rw [List.map_append, List.sum_append]
  rfl

theorem heldBytes_map {queue : List Entry} {f : Entry → Entry}
    (h : ∀ e ∈ queue, (f e).weight = e.weight) : heldBytes (queue.map f) = heldBytes queue := by
  unfold heldBytes
  rw [List.map_map]
  apply congrArg List.sum
  apply List.map_congr_left
  intro e he
  exact h e he

/-! The invariant -/

/-- The promise of an entry that has not been served. -/
def Entry.asked (e : Entry) : Option Handover := if e.claimed then some .pending else none

/-- What an entry has, by its state. -/
def Entry.Sound (content : Bytes → Bytes) (e : Entry) : Prop :=
  match e.state with
  | .queued =>
    e.tracked = true ∧ e.chunks = [] ∧ e.bytes = 0 ∧ e.error = none ∧ e.promise = e.asked
  | .fetching =>
    e.tracked = true ∧ e.bytes = e.chunks.flatten.length ∧
      e.chunks.flatten = (content e.id).take e.bytes ∧ e.error = none ∧ e.promise = e.asked
  | .done =>
    (e.promise = none ∨ e.promise = some (.resolved (content e.id))) ∧ e.error = none ∧
      (e.tracked = true → e.claimed = false ∧ e.promise = none ∧
        e.bytes = e.chunks.flatten.length ∧ e.chunks.flatten = content e.id)
  | .error =>
    e.chunks = [] ∧ ∃ err, e.error = some err ∧
      (e.promise = none ∨ e.promise = some (.rejected err))
  | .aborted => e.tracked = false ∧ e.promise = none ∧ e.error = none

/-- The entry that is being fetched. -/
def Fetch.entry : Fetch → Option Nat
  | .slicing k | .abandoning k | .failing k _ => some k
  | _ => none

namespace Prefetcher

variable {cfg : Config} {p p' : Prefetcher} {k : Nat} {e e' : Entry}

/-- What `take` has handed out settled is the blob, or the error of its fetch. -/
def Handed (content : Bytes → Bytes) (p : Prefetcher) : Prop :=
  ∀ k outcome, (k, outcome) ∈ p.handed → ∃ e, p.queue[k]? = some e ∧
    (∀ bytes, outcome = .ok bytes → bytes = content e.id) ∧
    ∀ err, outcome = .error err → e.error = some err

structure Sound (content : Bytes → Bytes) (p : Prefetcher) : Prop where
  entries : ∀ (k : Nat) (e : Entry), p.queue[k]? = some e → e.Sound content
  used : p.usedBytes = heldBytes p.queue
  unique : ∀ (i j : Nat) (a b : Entry), p.queue[i]? = some a → p.queue[j]? = some b → a.tracked = true →
    b.tracked = true → a.id = b.id → i = j
  fetching : ∀ (k : Nat) (e : Entry), p.queue[k]? = some e → (e.state = .fetching ↔ p.running.entry = some k)
  present : ∀ k : Nat, p.running.entry = some k → ∃ e, p.queue[k]? = some e
  unclaimed : ∀ (k : Nat) (e : Entry), p.running = .abandoning k → p.queue[k]? = some e → e.claimed = false
  handed : p.Handed content

/-- Whoever waits in the queue, a fetch is running. -/
def Busy (p : Prefetcher) : Prop :=
  ∀ (k : Nat) (e : Entry), p.queue[k]? = some e → e.state = .queued → e.claimed = true →
    p.running ≠ .idle

/-- The prefetcher with another entry in the place of the `k`-th. -/
def put (k : Nat) (e : Entry) (p : Prefetcher) : Prefetcher := { p with queue := p.queue.set k e }

theorem update_eq (h : p.queue[k]? = some e) (f : Entry → Entry) :
    p.update k f = p.put k (f e) := by
  have hmodify : p.queue.modify k f = p.queue.set k (f e) := by
    apply List.ext_getElem?
    intro j
    rw [List.getElem?_modify, List.getElem?_set]
    by_cases hkj : k = j
    · subst hkj
      have hlt := (List.getElem?_eq_some_iff.mp h).1
      rw [h, if_pos rfl, if_pos hlt]
      simp
    · rw [if_neg hkj]
      simp [hkj]
  unfold update put
  rw [hmodify]

theorem put_get (h : p.queue[k]? = some e) (e' : Entry) : (p.put k e').queue[k]? = some e' := by
  have hlt := (List.getElem?_eq_some_iff.mp h).1
  show (p.queue.set k e')[k]? = some e'
  rw [List.getElem?_set, if_pos rfl, if_pos hlt]

theorem put_put (e e' : Entry) : (p.put k e).put k e' = p.put k e' := by
  unfold put
  dsimp only
  rw [List.set_set]

theorem update_put (h : p.queue[k]? = some e) (e' : Entry) (f : Entry → Entry) :
    (p.put k e').update k f = p.put k (f e') := by
  rw [update_eq (put_get h e'), put_put]

theorem get_put_cases {j : Nat} {a : Entry} (h : (p.put k e').queue[j]? = some a) :
    (j = k ∧ a = e') ∨ (j ≠ k ∧ p.queue[j]? = some a) := by
  have h : (p.queue.set k e')[j]? = some a := h
  rw [List.getElem?_set] at h
  by_cases hkj : k = j
  · rw [if_pos hkj] at h
    split at h
    · exact .inl ⟨hkj.symm, (Option.some.inj h).symm⟩
    · cases h
  · rw [if_neg hkj] at h
    exact .inr ⟨Ne.symm hkj, h⟩

/-- Only the `k`-th entry is tracked under the id. -/
def Alone (p : Prefetcher) (k : Nat) (id : Bytes) : Prop :=
  ∀ (j : Nat) (a : Entry), p.queue[j]? = some a → a.tracked = true → a.id = id → j = k

theorem alone_of_sound {content : Bytes → Bytes} (hs : p.Sound content)
    (h : p.queue[k]? = some e) (ht : e.tracked = true) : p.Alone k e.id := fun j a hj hta hid =>
  hs.unique j k a e hj h hta ht hid

theorem alone_put {id : Bytes} (h : p.Alone k id) (e' : Entry) : (p.put k e').Alone k id := by
  intro j a hj hta hid
  rcases get_put_cases hj with ⟨rfl, -⟩ | ⟨-, hj⟩
  · rfl
  · exact h j a hj hta hid

theorem delete_eq (h : p.queue[k]? = some e) (halone : p.Alone k e.id) :
    p.delete e.id = p.put k { e with tracked := false } := by
  have hqueue : (p.queue.map fun a =>
      if a.id = e.id then { a with tracked := false } else a) =
      p.queue.set k { e with tracked := false } := by
    apply List.ext_getElem?
    intro j
    rw [List.getElem?_map, List.getElem?_set]
    by_cases hkj : k = j
    · subst hkj
      have hlt := (List.getElem?_eq_some_iff.mp h).1
      rw [h, if_pos rfl, if_pos hlt, Option.map_some, if_pos rfl]
    · rw [if_neg hkj]
      cases hj : p.queue[j]? with
      | none => rfl
      | some a =>
        rw [Option.map_some]
        split
        · rename_i hsame
          have hfalse : a.tracked = false := by
            by_contra htrue
            rw [Bool.not_eq_false] at htrue
            exact hkj (halone j a hj htrue hsame).symm
          rw [← hfalse]
        · rfl
  unfold delete put
  rw [hqueue]

theorem delete_put (h : p.queue[k]? = some e) {e' : Entry} (halone : p.Alone k e'.id) :
    (p.put k e').delete e'.id = p.put k { e' with tracked := false } := by
  rw [delete_eq (put_get h e') (alone_put halone e'), put_put]

/-- One entry changes, and with it what runs and the bytes in use. -/
theorem sound_put {content : Bytes → Bytes} (hs : p.Sound content) (h : p.queue[k]? = some e)
    (hsound : e'.Sound content) (hid : e'.id = e.id)
    (htracked : e'.tracked = true → e.tracked = true)
    (herror : ∀ err, e.error = some err → e'.error = some err) {usedBytes : Int}
    (hused : usedBytes = p.usedBytes - e.weight + e'.weight) {running : Fetch}
    (hrunning : ∀ j, running.entry = some j ↔
      (j = k ∧ e'.state = .fetching) ∨ (j ≠ k ∧ p.running.entry = some j))
    (hclaimed : ∀ j, running = .abandoning j →
      (j = k ∧ e'.claimed = false) ∨ (j ≠ k ∧ p.running = .abandoning j)) :
    ({ p.put k e' with usedBytes := usedBytes, running := running } : Prefetcher).Sound content := by
  refine ⟨?_, ?_, ?_, ?_, ?_, ?_, ?_⟩
  · intro j a hj
    rcases get_put_cases hj with ⟨-, rfl⟩ | ⟨-, hj⟩
    · exact hsound
    · exact hs.entries j a hj
  · have hset := heldBytes_set h e'
    have hu := hs.used
    show usedBytes = (heldBytes (p.queue.set k e') : Int)
    omega
  · intro i j a b hi hj hta htb hab
    rcases get_put_cases hi with ⟨rfl, rfl⟩ | ⟨-, hi'⟩
    · rcases get_put_cases hj with ⟨rfl, rfl⟩ | ⟨-, hj'⟩
      · rfl
      · exact hs.unique i j e b h hj' (htracked hta) htb (hid.symm.trans hab)
    · rcases get_put_cases hj with ⟨rfl, rfl⟩ | ⟨-, hj'⟩
      · exact hs.unique i j a e hi' h hta (htracked htb) (hab.trans hid)
      · exact hs.unique i j a b hi' hj' hta htb hab
  · intro j a hj
    show a.state = .fetching ↔ running.entry = some j
    rw [hrunning j]
    rcases get_put_cases hj with ⟨rfl, rfl⟩ | ⟨hne, hj⟩
    · simp
    · rw [hs.fetching j a hj]
      simp [hne]
  · intro j hj
    rcases (hrunning j).mp hj with ⟨rfl, -⟩ | ⟨hne, hj⟩
    · exact ⟨e', put_get h e'⟩
    · obtain ⟨a, ha⟩ := hs.present j hj
      refine ⟨a, ?_⟩
      show (p.queue.set k e')[j]? = some a
      rw [List.getElem?_set, if_neg (Ne.symm hne)]
      exact ha
  · intro j a hj ha
    rcases hclaimed j hj with ⟨rfl, hc⟩ | ⟨hne, hj⟩
    · rcases get_put_cases ha with ⟨-, rfl⟩ | ⟨hne, -⟩
      · exact hc
      · exact absurd rfl hne
    · rcases get_put_cases ha with ⟨rfl, -⟩ | ⟨-, ha⟩
      · exact absurd rfl hne
      · exact hs.unclaimed j a hj ha
  · intro j outcome hmem
    obtain ⟨a, ha, hok, herr⟩ := hs.handed j outcome hmem
    by_cases hjk : j = k
    · subst hjk
      rw [h] at ha
      obtain rfl := Option.some.inj ha
      refine ⟨e', put_get h e', ?_, ?_⟩
      · intro bytes hbytes
        rw [hid]
        exact hok bytes hbytes
      · exact fun err hout => herror err (herr err hout)
    · refine ⟨a, ?_, hok, herr⟩
      show (p.queue.set k e')[j]? = some a
      rw [List.getElem?_set, if_neg (Ne.symm hjk)]
      exact ha

/-! The end of a fetch -/

theorem release_eq (h : p.queue[k]? = some e) (halone : p.Alone k e.id) :
    p.release k e = { p.put k { e with chunks := [], tracked := false } with
      usedBytes := p.usedBytes - e.bytes } := by
  unfold release
  rw [update_eq (p := { p with usedBytes := p.usedBytes - e.bytes }) h]
  exact @delete_put { p with usedBytes := p.usedBytes - e.bytes } _ _ h { e with chunks := [] } halone

theorem finish_claimed (h : p.queue[k]? = some e) (halone : p.Alone k e.id)
    (hclaimed : (e.claimed && e.promise.isSome) = true) :
    p.finish k e = { p.put k { e with
      state := .done
      chunks := []
      tracked := false
      promise := some (.resolved e.chunks.flatten) } with
        usedBytes := p.usedBytes - e.bytes, running := .returned } := by
  have hdone := put_get (p := { p with running := .returned }) h { e with state := .done }
  have hrelease := @release_eq ({ p with running := .returned }.put k { e with state := .done }) k
    { e with state := .done } hdone (alone_put halone _)
  unfold finish
  rw [update_eq (p := { p with running := .returned }) h]
  dsimp only
  rw [if_pos hclaimed]
  have hsame : ({ p with running := .returned }.put k { e with state := .done }).release k e =
      ({ p with running := .returned }.put k { e with state := .done }).release k
        { e with state := .done } := rfl
  rw [hsame, hrelease, put_put]
  exact update_put (p := { p with usedBytes := p.usedBytes - e.bytes, running := .returned }) h _ _

theorem finish_unclaimed (h : p.queue[k]? = some e)
    (hclaimed : ¬ (e.claimed && e.promise.isSome) = true) :
    p.finish k e = { p.put k { e with state := .done } with running := .returned } := by
  unfold finish
  rw [update_eq (p := { p with running := .returned }) h]
  dsimp only
  rw [if_neg hclaimed]
  rfl

theorem asked_isSome (h : e.promise = e.asked) : (e.claimed && e.promise.isSome) = e.claimed := by
  rw [h]
  unfold Entry.asked
  cases e.claimed <;> rfl

/-- A fetch that ends with the blob. -/
theorem sound_finish {content : Bytes → Bytes} {e₀ : Entry} (hs : p.Sound content)
    (h : p.queue[k]? = some e₀) (htracked : e₀.tracked = true) (herror : e₀.error = none)
    (hid : e.id = e₀.id) (ht : e.tracked = true) (hbytes : e.bytes = e.chunks.flatten.length)
    (hcontent : e.chunks.flatten = content e.id) (hnone : e.error = none)
    (hasked : e.promise = e.asked) {usedBytes : Int}
    (hused : usedBytes = p.usedBytes - e₀.weight + e.weight)
    (hrunning : ∀ j, p.running.entry = some j → j = k) :
    (({ p.put k e with usedBytes := usedBytes } : Prefetcher).finish k e).Sound content := by
  have hget : ({ p.put k e with usedBytes := usedBytes } : Prefetcher).queue[k]? = some e :=
    put_get h e
  have halone : ({ p.put k e with usedBytes := usedBytes } : Prefetcher).Alone k e.id := by
    have hbase := alone_put (alone_of_sound hs h htracked) e
    rw [hid]
    exact hbase
  have hweight : e.weight = e.chunks.flatten.length := by
    unfold Entry.weight
    rw [if_pos ht]
  have hreturned (a : Entry) (ha : a.state ≠ .fetching) (j : Nat) :
      Fetch.returned.entry = some j ↔
        (j = k ∧ a.state = .fetching) ∨ (j ≠ k ∧ p.running.entry = some j) := by
    constructor
    · intro hj
      cases hj
    · rintro (⟨-, hstate⟩ | ⟨hne, hj⟩)
      · exact absurd hstate ha
      · exact absurd (hrunning j hj) hne
  by_cases hclaimed : (e.claimed && e.promise.isSome) = true
  · rw [finish_claimed hget halone hclaimed]
    have hput := @sound_put _ _ _ { e with
      state := .done
      chunks := []
      tracked := false
      promise := some (.resolved e.chunks.flatten) } _ hs h
      ⟨.inr (by rw [hcontent]), hnone, fun hno => nomatch hno⟩ hid (fun hno => nomatch hno)
      (fun err herr => by rw [herror] at herr; cases herr)
      (usedBytes - e.bytes) (by
        have hzero : ({ e with
          state := .done
          chunks := []
          tracked := false
          promise := some (.resolved e.chunks.flatten) } : Entry).weight = 0 := rfl
        rw [hzero]
        omega)
      .returned (hreturned _ EntryState.noConfusion)
      (fun j hj => nomatch hj)
    rw [← put_put (p := p) e] at hput
    exact hput
  · rw [finish_unclaimed hget hclaimed]
    have hno : e.claimed = false := by
      rw [asked_isSome hasked] at hclaimed
      exact Bool.not_eq_true _ ▸ hclaimed
    have hpromise : e.promise = none := by
      rw [hasked]
      unfold Entry.asked
      rw [hno]
      rfl
    have hput := @sound_put _ _ _ { e with state := .done } _ hs h
      ⟨.inl hpromise, hnone, fun _ => ⟨hno, hpromise, hbytes, hcontent⟩⟩ hid (fun _ => htracked)
      (fun err herr => by rw [herror] at herr; cases herr)
      usedBytes (by
        have hsame : ({ e with state := .done } : Entry).weight = e.weight := rfl
        rw [hsame]
        exact hused)
      .returned (hreturned _ EntryState.noConfusion)
      (fun j hj => nomatch hj)
    rw [← put_put (p := p) e] at hput
    exact hput

theorem finish_running (k : Nat) (e : Entry) : (p.finish k e).running = .returned := by
  unfold finish release update delete
  dsimp only
  split <;> rfl

theorem nextSlice_entry (k : Nat) (e : Entry) : (p.nextSlice k e).running.entry = some k := by
  unfold nextSlice
  dsimp only
  split <;> rfl

/-! The start of a fetch -/

theorem sound_queued {content : Bytes → Bytes} (h : e.Sound content) (hq : e.state = .queued) :
    e.tracked = true ∧ e.chunks = [] ∧ e.bytes = 0 ∧ e.error = none ∧ e.promise = e.asked := by
  unfold Entry.Sound at h
  rw [hq] at h
  exact h

theorem sound_fetching {content : Bytes → Bytes} (h : e.Sound content) (hf : e.state = .fetching) :
    e.tracked = true ∧ e.bytes = e.chunks.flatten.length ∧
      e.chunks.flatten = (content e.id).take e.bytes ∧ e.error = none ∧ e.promise = e.asked := by
  unfold Entry.Sound at h
  rw [hf] at h
  exact h

/-- The next slice of an entry that is being fetched, or the end of its fetch if nobody wants it. -/
theorem sound_nextSlice {content : Bytes → Bytes} {e₀ : Entry} (hs : p.Sound content)
    (h : p.queue[k]? = some e₀) (hsound : e.Sound content) (hfetching : e.state = .fetching)
    (hid : e.id = e₀.id) (htracked : e₀.tracked = true) (herror : e₀.error = none)
    {usedBytes : Int} (hused : usedBytes = p.usedBytes - e₀.weight + e.weight)
    (hrunning : ∀ j, p.running.entry = some j → j = k) {a : Entry}
    (hclaimed : a.claimed = e.claimed) :
    (({ p.put k e with usedBytes := usedBytes } : Prefetcher).nextSlice k a).Sound content := by
  have hput := @sound_put _ _ _ e _ hs h hsound hid (fun _ => htracked)
    (fun err herr => by rw [herror] at herr; cases herr) _ hused
    (({ p.put k e with usedBytes := usedBytes } : Prefetcher).nextSlice k a).running (by
      intro j
      rw [nextSlice_entry]
      constructor
      · intro hj
        exact .inl ⟨(Option.some.inj hj).symm, hfetching⟩
      · rintro (⟨rfl, -⟩ | ⟨hne, hj⟩)
        · rfl
        · exact absurd (hrunning j hj) hne) (by
      intro j hj
      have hj : (if p.closed && !a.claimed then Fetch.abandoning k else .slicing k) =
        .abandoning j := hj
      split at hj
      · rename_i habandon
        rw [Bool.and_eq_true, Bool.not_eq_true', hclaimed] at habandon
        exact .inl ⟨(Fetch.abandoning.inj hj).symm, habandon.2⟩
      · cases hj)
  exact hput

theorem sound_fetch (hs : p.Sound cfg.content) (h : p.queue[k]? = some e)
    (hq : e.state = .queued) (hidle : p.running.entry = none) (inlined : Bool) :
    (p.fetch cfg k e inlined).Sound cfg.content ∧ (p.fetch cfg k e inlined).running ≠ .idle := by
  obtain ⟨ht, hchunks, hbytes, herror, hasked⟩ := sound_queued (hs.entries k e h) hq
  have hnone : ∀ j, p.running.entry = some j → j = k := by
    intro j hj
    rw [hidle] at hj
    cases hj
  have hweight : e.weight = 0 := by
    unfold Entry.weight
    rw [if_pos ht, hchunks]
    rfl
  unfold fetch
  cases inlined with
  | true =>
    rw [if_pos rfl]
    dsimp only
    constructor
    · rw [update_eq (p := { p with
        usedBytes := p.usedBytes + (cfg.content e.id).length }) h]
      apply sound_finish (e := { e with
        state := .fetching, chunks := [cfg.content e.id], bytes := (cfg.content e.id).length }) hs h
        ht herror rfl ht
      · simp
      · simp
      · exact herror
      · exact hasked
      · have hfull : ({ e with
            state := .fetching
            chunks := [cfg.content e.id]
            bytes := (cfg.content e.id).length } : Entry).weight = (cfg.content e.id).length := by
          unfold Entry.weight
          rw [if_pos ht]
          simp
        rw [hfull, hweight]
        simp
      · exact hnone
    · rw [finish_running]
      exact Fetch.noConfusion
  | false =>
    rw [if_neg Bool.false_ne_true, update_eq h]
    constructor
    · have hsound : ({ e with state := .fetching } : Entry).Sound cfg.content := by
        refine ⟨ht, ?_, ?_, herror, hasked⟩
        · show e.bytes = e.chunks.flatten.length
          rw [hbytes, hchunks]
          rfl
        · show e.chunks.flatten = (cfg.content e.id).take e.bytes
          rw [hbytes, hchunks]
          rfl
      have hsame : ({ e with state := .fetching } : Entry).weight = e.weight := rfl
      apply @sound_nextSlice _ _ _ _ _ hs h hsound rfl rfl ht herror p.usedBytes _ hnone _ rfl
      rw [hsame]
      omega
    · intro hidle
      have hentry := @nextSlice_entry (p.put k { e with state := .fetching }) k e
      rw [hidle] at hentry
      cases hentry

theorem entry_idle (h : p.running = .idle) : p.running.entry = none := by
  rw [h]
  rfl

/-- Behind a `kick` nobody who waits is left alone. -/
theorem sound_kick (hs : p.Sound cfg.content) (inlined : Bool) :
    (p.kick cfg inlined).Sound cfg.content ∧ (p.kick cfg inlined).Busy := by
  unfold kick
  split
  · rename_i hidle
    split
    · rename_i k hfound
      obtain ⟨hlt, heligible, -⟩ := List.findIdx?_eq_some_iff_getElem.mp hfound
      have hget : p.queue[k]? = some p.queue[k] := List.getElem?_eq_getElem hlt
      rw [hget]
      have hq : p.queue[k].state = .queued := by
        unfold eligible at heligible
        rw [Bool.and_eq_true, beq_iff_eq] at heligible
        exact heligible.1
      obtain ⟨hsound, hbusy⟩ := sound_fetch hs hget hq (entry_idle hidle) inlined
      exact ⟨hsound, fun _ _ _ _ _ => hbusy⟩
    · rename_i hnone
      refine ⟨hs, ?_⟩
      intro j a hj hq hc
      have hmem : a ∈ p.queue := List.mem_of_getElem? hj
      have hnot := List.findIdx?_eq_none_iff.mp hnone a hmem
      unfold eligible at hnot
      rw [hq, hc] at hnot
      simp at hnot
  · rename_i hrunning
    exact ⟨hs, fun _ _ _ _ _ => hrunning⟩

/-! The steps -/

theorem sound_hand {content : Bytes → Bytes} (hs : p.Sound content) {outcome : Except String Bytes}
    (h : p.queue[k]? = some e) (hok : ∀ bytes, outcome = .ok bytes → bytes = content e.id)
    (herr : ∀ err, outcome = .error err → e.error = some err) :
    ({ p with handed := p.handed ++ [(k, outcome)] } : Prefetcher).Sound content := by
  refine ⟨hs.entries, hs.used, hs.unique, hs.fetching, hs.present, hs.unclaimed, ?_⟩
  intro j out hmem
  rcases List.mem_append.mp hmem with hmem | hmem
  · exact hs.handed j out hmem
  · obtain ⟨rfl, rfl⟩ := Prod.mk.inj (List.mem_singleton.mp hmem)
    exact ⟨e, h, hok, herr⟩

theorem tracked_some {id : Bytes} (h : p.tracked id = some k) :
    ∃ e, p.queue[k]? = some e ∧ e.tracked = true ∧ e.id = id := by
  obtain ⟨hlt, hfound, -⟩ := List.findIdx?_eq_some_iff_getElem.mp h
  rw [Bool.and_eq_true, beq_iff_eq] at hfound
  exact ⟨p.queue[k], List.getElem?_eq_getElem hlt, hfound.1, hfound.2⟩

/-- An entry that changes while nothing else does. -/
theorem sound_replace {content : Bytes → Bytes} (hs : p.Sound content) (h : p.queue[k]? = some e)
    (hsound : e'.Sound content) (hid : e'.id = e.id)
    (htracked : e'.tracked = true → e.tracked = true)
    (herror : ∀ err, e.error = some err → e'.error = some err)
    (hstate : e'.state = .fetching ↔ e.state = .fetching)
    (hclaimed : p.running = .abandoning k → e'.claimed = false) {usedBytes : Int}
    (hused : usedBytes = p.usedBytes - e.weight + e'.weight) :
    ({ p.put k e' with usedBytes := usedBytes } : Prefetcher).Sound content := by
  have hput := @sound_put _ _ _ _ _ hs h hsound hid htracked herror _ hused p.running (by
    intro j
    by_cases hjk : j = k
    · subst hjk
      have hf := hs.fetching j e h
      simp [hstate, hf]
    · simp [hjk]) (by
    intro j hj
    by_cases hjk : j = k
    · subst hjk
      exact .inl ⟨rfl, hclaimed hj⟩
    · exact .inr ⟨hjk, hj⟩)
  exact hput

/-- The steps that leave the claims alone: nobody claims a blob whose fetch is being abandoned, and
`close` finds no claimed entry in the queue and no bytes that nobody has claimed. -/
def Untroubled (p : Prefetcher) : Event → Prop
  | .take id _ => ∀ k, p.running = .abandoning k → p.tracked id ≠ some k
  | .close => ∀ e ∈ p.queue, e.tracked = true →
      (e.state = .queued → e.claimed = false) ∧ (e.state = .done → e.bytes = 0)
  | _ => True

section Take
variable (hs : p.Sound cfg.content) (h : p.queue[k]? = some e) (ht : e.tracked = true)
  (hfree : p.running ≠ .abandoning k)
include hs h ht hfree

theorem sound_take_done (hstate : e.state = .done) (inlined : Bool) :
    (({ (p.put k { e with claimed := true }).release k e with
      handed := (p.put k { e with claimed := true }).handed ++ [(k, .ok e.chunks.flatten)] } : Prefetcher).kick cfg inlined).Sound
        cfg.content ∧
    (({ (p.put k { e with claimed := true }).release k e with
      handed := (p.put k { e with claimed := true }).handed ++ [(k, .ok e.chunks.flatten)] } : Prefetcher).kick cfg inlined).Busy := by
  have hsound := hs.entries k e h
  unfold Entry.Sound at hsound
  rw [hstate] at hsound
  obtain ⟨hpromise, herror, hheld⟩ := hsound
  obtain ⟨-, -, hbytes, hcontent⟩ := hheld ht
  have hrelease : (p.put k { e with claimed := true }).release k e =
      { p.put k { e with claimed := true, chunks := [], tracked := false } with
        usedBytes := p.usedBytes - e.bytes } := by
    have hgot := @release_eq (p.put k { e with claimed := true }) k { e with claimed := true }
      (put_get h _) (alone_put (alone_of_sound hs h ht) _)
    rw [put_put] at hgot
    exact hgot
  have hweight : e.weight = e.bytes := by
    unfold Entry.weight
    rw [if_pos ht]
    exact hbytes.symm
  have hsound' : ({ e with claimed := true, chunks := [], tracked := false } : Entry).Sound
      cfg.content := by
    unfold Entry.Sound
    dsimp only
    rw [hstate]
    exact ⟨hpromise, herror, fun hno => nomatch hno⟩
  have hreplaced := @sound_replace _ _ _ _ _ hs h hsound' rfl (fun hno => nomatch hno) (fun err herr => herr)
    Iff.rfl (fun hab => absurd hab hfree) (p.usedBytes - e.bytes) (by
      have hzero : ({ e with claimed := true, chunks := [], tracked := false } : Entry).weight =
        0 := rfl
      rw [hzero, hweight]
      omega)
  rw [hrelease]
  apply sound_kick
  apply sound_hand (k := k) hreplaced (put_get h _)
  · intro bytes hbytes
    rw [← Except.ok.inj hbytes]
    exact hcontent
  · exact fun err herr => nomatch herr

theorem sound_take_error (hb : p.Busy) (hstate : e.state = .error) :
    ({ (p.put k { e with claimed := true }).delete e.id with
      handed := (p.put k { e with claimed := true }).handed ++ [(k, .error (e.error.getD ""))] } : Prefetcher).Sound cfg.content ∧
    ({ (p.put k { e with claimed := true }).delete e.id with
      handed := (p.put k { e with claimed := true }).handed ++ [(k, .error (e.error.getD ""))] } : Prefetcher).Busy := by
  have hsound := hs.entries k e h
  unfold Entry.Sound at hsound
  rw [hstate] at hsound
  obtain ⟨hchunks, err, herror, hpromise⟩ := hsound
  have hdelete : (p.put k { e with claimed := true }).delete e.id =
      p.put k { e with claimed := true, tracked := false } :=
    @delete_put _ _ _ h { e with claimed := true } (alone_of_sound (e := e) hs h ht)
  have hzero : e.weight = 0 := by
    unfold Entry.weight
    rw [hchunks]
    split <;> rfl
  have hsound' : ({ e with claimed := true, tracked := false } : Entry).Sound cfg.content := by
    unfold Entry.Sound
    dsimp only
    rw [hstate]
    exact ⟨hchunks, err, herror, hpromise⟩
  have hreplaced := @sound_replace _ _ _ _ _ hs h hsound' rfl (fun hno => nomatch hno) (fun err herr => herr)
    Iff.rfl (fun hab => absurd hab hfree) p.usedBytes (by
      have hzero' : ({ e with claimed := true, tracked := false } : Entry).weight = 0 := rfl
      rw [hzero', hzero]
      omega)
  rw [hdelete]
  constructor
  · apply sound_hand (k := k) hreplaced (put_get h _)
    · exact fun bytes hbytes => nomatch hbytes
    · intro err' herr'
      have hgiven := Except.error.inj herr'
      rw [herror, Option.getD_some] at hgiven
      rw [← hgiven]
      exact herror
  · intro j a hj hq hc
    rcases get_put_cases hj with ⟨rfl, rfl⟩ | ⟨-, hj⟩
    · have hq : e.state = .queued := hq
      rw [hstate] at hq
      cases hq
    · exact hb j a hj hq hc

/-- The promise of an entry that is still to be served. -/
theorem sound_take_waiting (hstate : e.state = .queued ∨ e.state = .fetching) (inlined : Bool) :
    ((p.put k { e with claimed := true, promise := some (e.promise.getD .pending) }).kick cfg
        inlined).Sound cfg.content ∧
      ((p.put k { e with claimed := true, promise := some (e.promise.getD .pending) }).kick cfg
        inlined).Busy := by
  have hsound := hs.entries k e h
  have hasked : e.promise = e.asked := by
    rcases hstate with hq | hf
    · exact (sound_queued hsound hq).2.2.2.2
    · exact (sound_fetching hsound hf).2.2.2.2
  have hpending : e.promise.getD .pending = .pending := by
    rw [hasked]
    unfold Entry.asked
    cases e.claimed <;> rfl
  have hsound' : ({ e with claimed := true, promise := some .pending } : Entry).Sound
      cfg.content := by
    unfold Entry.Sound
    dsimp only
    rcases hstate with hq | hf
    · obtain ⟨-, hchunks, hbytes, herror, -⟩ := sound_queued hsound hq
      rw [hq]
      exact ⟨ht, hchunks, hbytes, herror, rfl⟩
    · obtain ⟨-, hbytes, hcontent, herror, -⟩ := sound_fetching hsound hf
      rw [hf]
      exact ⟨ht, hbytes, hcontent, herror, rfl⟩
  rw [hpending]
  apply sound_kick
  exact @sound_replace _ _ _ _ _ hs h hsound' rfl (fun _ => ht) (fun err herr => herr) Iff.rfl
    (fun hab => absurd hab hfree) p.usedBytes (by
      have hsame : ({ e with claimed := true, promise := some .pending } : Entry).weight =
        e.weight := rfl
      rw [hsame]
      omega)

end Take

theorem sound_take (hs : p.Sound cfg.content) (hb : p.Busy) {id : Bytes} {inlined : Bool}
    (hok : p.Untroubled (.take id inlined)) :
    (p.take cfg id inlined).Sound cfg.content ∧ (p.take cfg id inlined).Busy := by
  unfold take
  cases htracked : p.tracked id with
  | none => exact ⟨hs, hb⟩
  | some k =>
    obtain ⟨e, h, ht, -⟩ := tracked_some htracked
    have hsound := hs.entries k e h
    have hfree : p.running ≠ .abandoning k := fun hab => hok k hab htracked
    dsimp only
    rw [h]
    dsimp only
    rw [update_eq h, update_put h]
    have hdone := sound_take_done hs h ht hfree
    have herror := sound_take_error hs h ht hfree hb
    have hwaiting := sound_take_waiting hs h ht hfree
    revert hdone herror hwaiting
    generalize p.put k { e with claimed := true } = claimed
    generalize p.put k { e with claimed := true, promise := some (e.promise.getD .pending) } =
      promised
    intro hdone herror hwaiting
    cases hstate : e.state with
    | aborted =>
      unfold Entry.Sound at hsound
      rw [hstate] at hsound
      rw [hsound.1] at ht
      cases ht
    | done => exact hdone hstate inlined
    | error => exact herror hstate
    | queued => exact hwaiting (.inl hstate) inlined
    | fetching => exact hwaiting (.inr hstate) inlined

/-- An entry that is added. -/
theorem sound_push (hs : p.Sound cfg.content) {id : Bytes} (hnew : ¬ p.isTracked id = true)
    (rowIdx : Int) :
    ({ p with queue := p.queue ++ [{ id := id, rowIdx := rowIdx }] } : Prefetcher).Sound
      cfg.content := by
  have hget {j : Nat} {a : Entry}
      (hj : (p.queue ++ [({ id := id, rowIdx := rowIdx } : Entry)])[j]? = some a) :
      p.queue[j]? = some a ∨ (j = p.queue.length ∧ a = { id := id, rowIdx := rowIdx }) := by
    rw [List.getElem?_append] at hj
    split at hj
    · exact .inl hj
    · rename_i hlt
      have hzero : j - p.queue.length = 0 := by
        by_contra hne
        rw [List.getElem?_eq_none (by simp; omega)] at hj
        cases hj
      rw [hzero] at hj
      exact .inr ⟨by omega, (Option.some.inj hj).symm⟩
  have hother {j : Nat} {a : Entry} (hj : p.queue[j]? = some a) (hta : a.tracked = true) :
      a.id ≠ id := by
    intro hid
    apply hnew
    apply List.any_eq_true.mpr
    exact ⟨a, List.mem_of_getElem? hj, by simp [hta, hid]⟩
  have hkeep {j : Nat} {a : Entry} (hj : p.queue[j]? = some a) :
      (p.queue ++ [({ id := id, rowIdx := rowIdx } : Entry)])[j]? = some a := by
    have hlt := (List.getElem?_eq_some_iff.mp hj).1
    rw [List.getElem?_append_left hlt]
    exact hj
  refine ⟨?_, ?_, ?_, ?_, ?_, ?_, ?_⟩
  · intro j a hj
    rcases hget hj with hj | ⟨-, rfl⟩
    · exact hs.entries j a hj
    · exact ⟨rfl, rfl, rfl, rfl, rfl⟩
  · have hu := hs.used
    show p.usedBytes = (heldBytes (p.queue ++ [_]) : Int)
    rw [heldBytes_append, hu]
    rfl
  · intro i j a b hi hj hta htb hab
    rcases hget hi with hi' | ⟨rfl, rfl⟩
    · rcases hget hj with hj' | ⟨rfl, rfl⟩
      · exact hs.unique i j a b hi' hj' hta htb hab
      · exact absurd hab (hother hi' hta)
    · rcases hget hj with hj' | ⟨rfl, rfl⟩
      · exact absurd hab.symm (hother hj' htb)
      · rfl
  · intro j a hj
    rcases hget hj with hj | ⟨rfl, rfl⟩
    · exact hs.fetching j a hj
    · constructor
      · exact fun hstate => nomatch hstate
      · intro hentry
        obtain ⟨a, ha⟩ := hs.present _ hentry
        rw [List.getElem?_eq_none (Nat.le_refl _)] at ha
        cases ha
  · intro j hj
    obtain ⟨a, ha⟩ := hs.present j hj
    exact ⟨a, hkeep ha⟩
  · intro j a hrunning hj
    rcases hget hj with hj | ⟨-, rfl⟩
    · exact hs.unclaimed j a hrunning hj
    · rfl
  · intro j outcome hmem
    obtain ⟨a, ha, hok, herr⟩ := hs.handed j outcome hmem
    exact ⟨a, hkeep ha, hok, herr⟩

theorem busy_push (hb : p.Busy) (id : Bytes) (rowIdx : Int) :
    ({ p with queue := p.queue ++ [{ id := id, rowIdx := rowIdx }] } : Prefetcher).Busy := by
  intro j a hj hq hc
  have hj : (p.queue ++ [({ id := id, rowIdx := rowIdx } : Entry)])[j]? = some a := hj
  rcases List.mem_append.mp (List.mem_of_getElem? hj) with hmem | hmem
  · obtain ⟨i, hi⟩ := List.getElem?_of_mem hmem
    exact hb i a hi hq hc
  · obtain rfl := List.mem_singleton.mp hmem
    cases hc

theorem sound_addRow (hs : p.Sound cfg.content) (hb : p.Busy) (rowIdx : Nat) (ids : List Bytes) :
    (p.addRow rowIdx ids).Sound cfg.content ∧ (p.addRow rowIdx ids).Busy := by
  unfold addRow
  split
  · exact ⟨hs, hb⟩
  · clear * - hs hb
    induction ids generalizing p with
    | nil => exact ⟨hs, hb⟩
    | cons id ids ih =>
      rw [List.foldl_cons]
      split
      · exact ih hs hb
      · rename_i hnew
        exact ih (sound_push hs hnew rowIdx) (busy_push hb id rowIdx)

theorem sound_close (hs : p.Sound cfg.content) (hb : p.Busy) (hok : p.Untroubled .close) :
    p.close.Sound cfg.content ∧ p.close.Busy := by
  have hget {j : Nat} {a : Entry} (hj : p.close.queue[j]? = some a) : ∃ e, p.queue[j]? = some e ∧
      ((stopped e = false ∧ a = e) ∨ (stopped e = true ∧
        a = { e with state := .aborted, chunks := [], tracked := false })) := by
    have hj : (p.queue.map fun e => if stopped e then
      { e with state := .aborted, chunks := [], tracked := false } else e)[j]? = some a := hj
    rw [List.getElem?_map] at hj
    obtain ⟨e, he, rfl⟩ := Option.map_eq_some_iff.mp hj
    refine ⟨e, he, ?_⟩
    split
    · rename_i hstop
      exact .inr ⟨hstop, rfl⟩
    · rename_i hstop
      exact .inl ⟨Bool.not_eq_true _ ▸ hstop, rfl⟩
  have hstop {e : Entry} (h : stopped e = true) : e.tracked = true ∧
      (e.state = .queued ∨ e.state = .done ∧ e.claimed = false) := by
    unfold stopped at h
    simp only [Bool.and_eq_true, Bool.or_eq_true, beq_iff_eq, Bool.not_eq_true'] at h
    exact h
  -- what is stopped has no promise, no error and no bytes
  have hidle {j : Nat} {e : Entry} (hj : p.queue[j]? = some e) (h : stopped e = true) :
      e.promise = none ∧ e.error = none ∧ e.weight = 0 ∧ e.state ≠ .fetching := by
    obtain ⟨ht, hstate⟩ := hstop h
    have hsound := hs.entries j e hj
    obtain ⟨hqueued, hdone⟩ := hok e (List.mem_of_getElem? hj) ht
    rcases hstate with hq | ⟨hd, -⟩
    · obtain ⟨-, hchunks, -, herror, hasked⟩ := sound_queued hsound hq
      refine ⟨?_, herror, ?_, ?_⟩
      · rw [hasked]
        unfold Entry.asked
        rw [hqueued hq]
        rfl
      · unfold Entry.weight
        rw [hchunks]
        split <;> rfl
      · rw [hq]
        exact EntryState.noConfusion
    · unfold Entry.Sound at hsound
      rw [hd] at hsound
      obtain ⟨-, herror, hheld⟩ := hsound
      obtain ⟨-, hpromise, hbytes, -⟩ := hheld ht
      refine ⟨hpromise, herror, ?_, ?_⟩
      · unfold Entry.weight
        rw [if_pos ht, ← hbytes]
        exact hdone hd
      · rw [hd]
        exact EntryState.noConfusion
  refine ⟨⟨?_, ?_, ?_, ?_, ?_, ?_, ?_⟩, ?_⟩
  · intro j a hj
    obtain ⟨e, he, ⟨-, rfl⟩ | ⟨hstopped, rfl⟩⟩ := hget hj
    · exact hs.entries j _ he
    · exact ⟨rfl, (hidle he hstopped).1, (hidle he hstopped).2.1⟩
  · show p.usedBytes = (heldBytes (p.queue.map _) : Int)
    rw [heldBytes_map]
    · exact hs.used
    · intro e hmem
      obtain ⟨j, hj⟩ := List.getElem?_of_mem hmem
      split
      · rename_i hstopped
        exact (hidle hj hstopped).2.2.1.symm
      · rfl
  · intro i j a b hi hj hta htb hab
    obtain ⟨e, he, ⟨-, rfl⟩ | ⟨-, rfl⟩⟩ := hget hi
    · obtain ⟨e', he', ⟨-, rfl⟩ | ⟨-, rfl⟩⟩ := hget hj
      · exact hs.unique i j _ _ he he' hta htb hab
      · cases htb
    · cases hta
  · intro j a hj
    obtain ⟨e, he, ⟨-, rfl⟩ | ⟨hstopped, rfl⟩⟩ := hget hj
    · exact hs.fetching j _ he
    · constructor
      · exact fun hstate => nomatch hstate
      · intro hentry
        exact absurd ((hs.fetching j e he).mpr hentry) (hidle he hstopped).2.2.2
  · intro j hj
    obtain ⟨e, he⟩ := hs.present j hj
    refine ⟨if stopped e then { e with state := .aborted, chunks := [], tracked := false } else e, ?_⟩
    show (p.queue.map _)[j]? = _
    rw [List.getElem?_map, he]
    rfl
  · intro j a hrunning hj
    obtain ⟨e, he, ⟨-, rfl⟩ | ⟨-, rfl⟩⟩ := hget hj
    · exact hs.unclaimed j _ hrunning he
    · exact hs.unclaimed j e hrunning he
  · intro j outcome hmem
    obtain ⟨e, he, houtcome, herr⟩ := hs.handed j outcome hmem
    refine ⟨if stopped e then { e with state := .aborted, chunks := [], tracked := false } else e,
      ?_, ?_, ?_⟩
    · show (p.queue.map _)[j]? = _
      rw [List.getElem?_map, he]
      rfl
    · intro bytes hbytes
      rw [houtcome bytes hbytes]
      split <;> rfl
    · intro err hout
      have herror := herr err hout
      split <;> exact herror
  · intro j a hj hq hc
    obtain ⟨e, he, ⟨-, rfl⟩ | ⟨-, rfl⟩⟩ := hget hj
    · exact hb j _ he hq hc
    · cases hq

/-- The entry of the fetch that runs. -/
theorem running_entry (hs : p.Sound cfg.content) (hrunning : p.running.entry = some k)
    (h : p.queue[k]? = some e) :
    e.state = .fetching ∧ ∀ j, p.running.entry = some j → j = k := by
  refine ⟨(hs.fetching k e h).mpr hrunning, ?_⟩
  intro j hj
  rw [hrunning] at hj
  exact (Option.some.inj hj).symm

theorem sound_slice (hs : p.Sound cfg.content) (hrunning : p.running = .slicing k)
    (h : p.queue[k]? = some e) {chunks : List Bytes} {eof : Bool}
    (hreads : reads cfg e chunks eof = true) :
    (p.slice k e chunks eof).Sound cfg.content ∧ (p.slice k e chunks eof).running ≠ .idle := by
  have hentry : p.running.entry = some k := by
    rw [hrunning]
    rfl
  obtain ⟨hfetching, honly⟩ := running_entry hs hentry h
  obtain ⟨ht, hbytes, hcontent, herror, hasked⟩ := sound_fetching (hs.entries k e h) hfetching
  unfold reads at hreads
  rw [Bool.and_eq_true, decide_eq_true_eq, Bool.or_eq_true, Bool.not_eq_true', beq_iff_eq] at hreads
  obtain ⟨hnext, hend⟩ := hreads
  have hflat : (e.chunks ++ chunks).flatten = e.chunks.flatten ++ chunks.flatten :=
    List.flatten_append
  have hbytes' : e.bytes + chunks.flatten.length = (e.chunks ++ chunks).flatten.length := by
    rw [hflat, List.length_append, hbytes]
  have hcontent' : (e.chunks ++ chunks).flatten =
      (cfg.content e.id).take (e.bytes + chunks.flatten.length) := by
    rw [hflat, hcontent, hnext, List.take_add]
    congr 2
    rw [← hnext]
  have hweight : e.weight = e.bytes := by
    unfold Entry.weight
    rw [if_pos ht]
    exact hbytes.symm
  have hweight' : ({ e with
      chunks := e.chunks ++ chunks, bytes := e.bytes + chunks.flatten.length } : Entry).weight =
      e.bytes + chunks.flatten.length := by
    unfold Entry.weight
    dsimp only
    rw [if_pos ht]
    exact hbytes'.symm
  unfold slice
  dsimp only
  rw [update_eq (p := { p with usedBytes := p.usedBytes + (chunks.flatten.length : Nat) }) h]
  cases eof with
  | true =>
    rw [if_pos rfl]
    constructor
    · have hall : e.bytes + chunks.flatten.length = (cfg.content e.id).length :=
        hend.resolve_left Bool.noConfusion
      apply sound_finish (e := { e with
        chunks := e.chunks ++ chunks, bytes := e.bytes + chunks.flatten.length }) hs h ht herror rfl
        ht hbytes' _ herror hasked _ honly
      · show (e.chunks ++ chunks).flatten = cfg.content e.id
        rw [hcontent', hall, List.take_length]
      · rw [hweight, hweight']
        push_cast
        omega
    · rw [finish_running]
      exact Fetch.noConfusion
  | false =>
    rw [if_neg Bool.false_ne_true]
    constructor
    · have hsound' : ({ e with
          chunks := e.chunks ++ chunks, bytes := e.bytes + chunks.flatten.length } : Entry).Sound
          cfg.content := by
        unfold Entry.Sound
        dsimp only
        rw [hfetching]
        exact ⟨ht, hbytes', hcontent', herror, hasked⟩
      apply sound_nextSlice (e := { e with
        chunks := e.chunks ++ chunks, bytes := e.bytes + chunks.flatten.length }) hs h hsound'
        hfetching rfl ht herror _ honly rfl
      rw [hweight, hweight']
      push_cast
      omega
    · intro hidle
      have hsome := nextSlice_entry (p := { p.put k { e with
        chunks := e.chunks ++ chunks, bytes := e.bytes + chunks.flatten.length } with
          usedBytes := p.usedBytes + (chunks.flatten.length : Nat) }) k { e with
        chunks := e.chunks ++ chunks, bytes := e.bytes + chunks.flatten.length }
      have hidle' := congrArg Fetch.entry hidle
      exact nomatch hsome.symm.trans hidle'

theorem sound_refuse (hs : p.Sound cfg.content) (hrunning : p.running = .slicing k) (err : String) :
    ({ p with running := .failing k err } : Prefetcher).Sound cfg.content := by
  have hfetching := hs.fetching
  have hpresent := hs.present
  rw [hrunning] at hfetching hpresent
  exact ⟨hs.entries, hs.used, hs.unique, hfetching, hpresent, (fun j a hj => nomatch hj), hs.handed⟩

/-- The fetch of an entry is over, and its bytes are given up. -/
theorem sound_over (hs : p.Sound cfg.content) (hrunning : p.running.entry = some k)
    (h : p.queue[k]? = some e) (hsound : e'.Sound cfg.content) (hid : e'.id = e.id)
    (hzero : e'.weight = 0) (hstate : e'.state ≠ .fetching) :
    ({ p.put k e' with
      usedBytes := p.usedBytes - e.bytes, running := .returned } : Prefetcher).Sound cfg.content := by
  obtain ⟨hfetching, honly⟩ := running_entry hs hrunning h
  obtain ⟨ht, hbytes, -, herror, -⟩ := sound_fetching (hs.entries k e h) hfetching
  apply sound_put hs h hsound hid (fun _ => ht)
  · intro err herr
    rw [herror] at herr
    cases herr
  · have hweight : e.weight = e.bytes := by
      unfold Entry.weight
      rw [if_pos ht]
      exact hbytes.symm
    rw [hzero, hweight]
    omega
  · intro j
    constructor
    · exact fun hj => nomatch hj
    · rintro (⟨-, hf⟩ | ⟨hne, hj⟩)
      · exact absurd hf hstate
      · exact absurd (honly j hj) hne
  · exact fun j hj => nomatch hj

theorem sound_abandoned (hs : p.Sound cfg.content) (hrunning : p.running = .abandoning k)
    (h : p.queue[k]? = some e) : (p.abandoned k e).Sound cfg.content := by
  have hentry : p.running.entry = some k := by
    rw [hrunning]
    rfl
  obtain ⟨hfetching, -⟩ := running_entry hs hentry h
  obtain ⟨ht, -, -, herror, hasked⟩ := sound_fetching (hs.entries k e h) hfetching
  have hpromise : e.promise = none := by
    rw [hasked]
    unfold Entry.asked
    rw [hs.unclaimed k e hrunning h]
    rfl
  have hsound : ({ e with state := .aborted, chunks := [], tracked := false } : Entry).Sound
      cfg.content := ⟨rfl, hpromise, herror⟩
  have hover := sound_over hs hentry h hsound rfl rfl EntryState.noConfusion
  have halone : p.Alone k e.id := alone_of_sound hs h ht
  have heq : p.abandoned k e = { p.put k { e with
      state := .aborted, chunks := [], tracked := false } with
        usedBytes := p.usedBytes - e.bytes, running := .returned } := by
    unfold abandoned
    rw [update_eq (p := { p with usedBytes := p.usedBytes - e.bytes, running := .returned }) h]
    exact @delete_put { p with usedBytes := p.usedBytes - e.bytes, running := .returned } _ _ h
      { e with chunks := [], state := .aborted } halone
  rw [heq]
  exact hover

theorem sound_failed (hs : p.Sound cfg.content) {err : String} (hrunning : p.running = .failing k err)
    (h : p.queue[k]? = some e) : (p.failed k e err).Sound cfg.content := by
  have hentry : p.running.entry = some k := by
    rw [hrunning]
    rfl
  obtain ⟨hfetching, -⟩ := running_entry hs hentry h
  obtain ⟨ht, -, -, herror, hasked⟩ := sound_fetching (hs.entries k e h) hfetching
  unfold failed
  rw [update_eq (p := { p with usedBytes := p.usedBytes - e.bytes, running := .returned }) h]
  dsimp only
  split
  · have hsound : ({ e with
        chunks := []
        state := .error
        error := some err
        tracked := false
        promise := some (.rejected err) } : Entry).Sound cfg.content :=
      ⟨rfl, err, rfl, .inr rfl⟩
    have hover := sound_over hs hentry h hsound rfl rfl EntryState.noConfusion
    have halone : p.Alone k e.id := alone_of_sound hs h ht
    have hdelete := @delete_put { p with
        usedBytes := p.usedBytes - e.bytes, running := .returned } _ _ h
      { e with chunks := [], state := .error, error := some err } halone
    have hupdate := update_put (p := { p with
        usedBytes := p.usedBytes - e.bytes, running := .returned }) h
      { e with chunks := [], state := .error, error := some err, tracked := false }
      fun e => { e with promise := some (.rejected err) }
    rw [← hdelete] at hupdate
    exact hupdate ▸ hover
  · rename_i hclaimed
    have hpromise : e.promise = none := by
      rw [asked_isSome hasked] at hclaimed
      rw [hasked]
      unfold Entry.asked
      rw [if_neg hclaimed]
    have hsound : ({ e with chunks := [], state := .error, error := some err } : Entry).Sound
        cfg.content := ⟨rfl, err, rfl, .inl hpromise⟩
    apply sound_over hs hentry h hsound rfl _ EntryState.noConfusion
    unfold Entry.weight
    split <;> rfl

theorem busy_of_running (h : p.running ≠ .idle) : p.Busy := fun _ _ _ _ _ => h

theorem sound_step {e : Event} (hs : p.Sound cfg.content) (hb : p.Busy) (hok : p.Untroubled e)
    (hstep : p.step cfg e = some p') : p'.Sound cfg.content ∧ p'.Busy := by
  cases e with
  | addRow rowIdx ids =>
    obtain rfl := Option.some.inj hstep
    exact sound_addRow hs hb rowIdx ids
  | advance rowIdx inlined =>
    obtain rfl := Option.some.inj hstep
    unfold advance
    apply sound_kick
    exact ⟨hs.entries, hs.used, hs.unique, hs.fetching, hs.present, hs.unclaimed, hs.handed⟩
  | take id inlined =>
    obtain rfl := Option.some.inj hstep
    exact sound_take hs hb hok
  | close =>
    obtain rfl := Option.some.inj hstep
    exact sound_close hs hb hok
  | slice chunks eof =>
    simp only [step] at hstep
    split at hstep
    · rename_i k hrunning
      obtain ⟨e, he, hstep⟩ := Option.bind_eq_some_iff.mp hstep
      split at hstep
      · rename_i hreads
        obtain rfl := Option.some.inj hstep
        obtain ⟨hsound, hbusy⟩ := sound_slice hs hrunning he hreads
        exact ⟨hsound, busy_of_running hbusy⟩
      · cases hstep
    · cases hstep
  | refuse err =>
    simp only [step] at hstep
    split at hstep
    · rename_i k hrunning
      obtain rfl := Option.some.inj hstep
      exact ⟨sound_refuse hs hrunning err, busy_of_running Fetch.noConfusion⟩
    · cases hstep
  | released =>
    simp only [step] at hstep
    split at hstep
    · rename_i k hrunning
      obtain ⟨e, he, rfl⟩ := Option.map_eq_some_iff.mp hstep
      exact ⟨sound_abandoned hs hrunning he, busy_of_running Fetch.noConfusion⟩
    · rename_i k err hrunning
      obtain ⟨e, he, rfl⟩ := Option.map_eq_some_iff.mp hstep
      refine ⟨sound_failed hs hrunning he, busy_of_running ?_⟩
      unfold failed update delete
      dsimp only
      split <;> exact Fetch.noConfusion
    · cases hstep
  | settled inlined =>
    simp only [step] at hstep
    split at hstep
    · rename_i hrunning
      obtain rfl := Option.some.inj hstep
      apply sound_kick
      have hfetching := hs.fetching
      have hpresent := hs.present
      rw [hrunning] at hfetching hpresent
      exact ⟨hs.entries, hs.used, hs.unique, hfetching, hpresent, (fun j a hj => nomatch hj), hs.handed⟩
    · cases hstep

theorem reachable_sound (h : (machine cfg).Reachable Untroubled p) :
    p.Sound cfg.content ∧ p.Busy := by
  refine h.invariant (fun p => p.Sound cfg.content ∧ p.Busy) ?_
    fun p e p' hs hok hstep => sound_step hs.1 hs.2 hok hstep
  rintro p rfl
  refine ⟨⟨?_, rfl, ?_, ?_, ?_, ?_, ?_⟩, ?_⟩
  · exact fun k e hk => nomatch hk
  · exact fun i j a b hi => nomatch hi
  · exact fun k e hk => nomatch hk
  · exact fun k hk => nomatch hk
  · exact fun k e hrunning => nomatch hrunning
  · exact fun k outcome hmem => absurd hmem List.not_mem_nil
  · exact fun k e hk => nomatch hk

/-- A promise that `take` has given and that is not settled is that of an entry in the queue of a
prefetcher that is at work, or of the one that is being fetched for it; a settled one has the bytes
of its blob or the error of its fetch; and the bytes in use are those held. -/
theorem prefetcher_serves (cfg : Config) {p : Prefetcher}
    (h : (machine cfg).Reachable Untroubled p) :
    (∀ (k : Nat) (e : Entry), p.queue[k]? = some e →
      (e.promise = some .pending → e.tracked = true ∧ e.claimed = true ∧
        (e.state = .queued ∧ p.running ≠ .idle ∨
          e.state = .fetching ∧ (p.running = .slicing k ∨ ∃ err, p.running = .failing k err))) ∧
      (∀ bytes, e.promise = some (.resolved bytes) → bytes = cfg.content e.id) ∧
      ∀ err, e.promise = some (.rejected err) → e.state = .error ∧ e.error = some err) ∧
    (∀ k outcome, (k, outcome) ∈ p.handed → ∃ e, p.queue[k]? = some e ∧
      (∀ bytes, outcome = .ok bytes → bytes = cfg.content e.id) ∧
      ∀ err, outcome = .error err → e.error = some err) ∧
    p.usedBytes = heldBytes p.queue ∧ 0 ≤ p.usedBytes := by
  obtain ⟨hs, hb⟩ := reachable_sound h
  have hused := hs.used
  refine ⟨?_, hs.handed, hused, by omega⟩
  intro k e hk
  have hsound := hs.entries k e hk
  have hasked (hpending : e.asked = some .pending) : e.claimed = true := by
    unfold Entry.asked at hpending
    split at hpending
    · rename_i hclaimed
      exact hclaimed
    · cases hpending
  unfold Entry.Sound at hsound
  cases hstate : e.state with
  | queued =>
    rw [hstate] at hsound
    obtain ⟨ht, -, -, -, hpromise⟩ := hsound
    rw [hpromise]
    refine ⟨?_, ?_, ?_⟩
    · intro hpending
      have hclaimed := hasked hpending
      exact ⟨ht, hclaimed, .inl ⟨rfl, hb k e hk hstate hclaimed⟩⟩
    · intro bytes hresolved
      unfold Entry.asked at hresolved
      split at hresolved <;> cases hresolved
    · intro err hrejected
      unfold Entry.asked at hrejected
      split at hrejected <;> cases hrejected
  | fetching =>
    rw [hstate] at hsound
    obtain ⟨ht, -, -, -, hpromise⟩ := hsound
    rw [hpromise]
    refine ⟨?_, ?_, ?_⟩
    · intro hpending
      have hclaimed := hasked hpending
      refine ⟨ht, hclaimed, .inr ⟨rfl, ?_⟩⟩
      have hentry := (hs.fetching k e hk).mp hstate
      cases hrunning : p.running with
      | slicing j =>
        rw [hrunning] at hentry
        obtain rfl := Option.some.inj hentry
        exact .inl rfl
      | failing j err =>
        rw [hrunning] at hentry
        obtain rfl := Option.some.inj hentry
        exact .inr ⟨err, rfl⟩
      | abandoning j =>
        rw [hrunning] at hentry
        obtain rfl := Option.some.inj hentry
        have hfree := hs.unclaimed _ e hrunning hk
        rw [hclaimed] at hfree
        cases hfree
      | idle =>
        rw [hrunning] at hentry
        cases hentry
      | returned =>
        rw [hrunning] at hentry
        cases hentry
    · intro bytes hresolved
      unfold Entry.asked at hresolved
      split at hresolved <;> cases hresolved
    · intro err hrejected
      unfold Entry.asked at hrejected
      split at hrejected <;> cases hrejected
  | done =>
    rw [hstate] at hsound
    obtain ⟨hpromise, -, -⟩ := hsound
    rcases hpromise with hpromise | hpromise <;> rw [hpromise]
    · exact ⟨(fun hno => nomatch hno), (fun _ hno => nomatch hno), fun _ hno => nomatch hno⟩
    · refine ⟨(fun hno => nomatch hno), ?_, fun _ hno => nomatch hno⟩
      intro bytes hresolved
      exact (Handover.resolved.inj (Option.some.inj hresolved)).symm
  | error =>
    rw [hstate] at hsound
    obtain ⟨-, err, herror, hpromise⟩ := hsound
    rcases hpromise with hpromise | hpromise <;> rw [hpromise]
    · exact ⟨(fun hno => nomatch hno), (fun _ hno => nomatch hno), fun _ hno => nomatch hno⟩
    · refine ⟨(fun hno => nomatch hno), (fun _ hno => nomatch hno), ?_⟩
      intro err' hrejected
      rw [← Handover.rejected.inj (Option.some.inj hrejected)]
      exact ⟨rfl, herror⟩
  | aborted =>
    rw [hstate] at hsound
    obtain ⟨-, hpromise, -⟩ := hsound
    rw [hpromise]
    exact ⟨(fun hno => nomatch hno), (fun _ hno => nomatch hno), fun _ hno => nomatch hno⟩

/-- A window of one row, and short blobs. -/
def oneAhead : Config := ⟨1, 100, fun id => 65 :: id⟩

/-- A blob that is claimed while its first slice is read. -/
def claimedRun : List Event := [.addRow 0 [[1]], .advance 0 false, .take [1] false]

theorem prefetcher_serves_claimed :
    ∃ p, (machine oneAhead).run {} claimedRun = some p ∧
      (∃ e ∈ p.queue, e.promise = some .pending) ∧
      (∀ (k : Nat) (e : Entry), p.queue[k]? = some e → e.promise = some .pending →
        e.tracked = true ∧ e.claimed = true ∧
          (e.state = .queued ∧ p.running ≠ .idle ∨
            e.state = .fetching ∧ (p.running = .slicing k ∨ ∃ err, p.running = .failing k err))) ∧
      p.usedBytes = heldBytes p.queue := by
  have h₀ : (machine oneAhead).Reachable Untroubled {} := .init rfl
  have h₁ := h₀.step (e := Event.addRow 0 [[1]]) trivial rfl
  have h₂ := h₁.step (e := Event.advance 0 false) trivial rfl
  have h₃ := h₂.step (e := Event.take [1] false) (fun k hk => nomatch hk) rfl
  have hserved := prefetcher_serves oneAhead h₃
  refine ⟨_, rfl, ?_, fun k e hk => (hserved.1 k e hk).1, hserved.2.2.1⟩
  exact ⟨_, List.mem_cons_self, rfl⟩

/-- The second blob is claimed while the first is read, and then the stream is given up. -/
def orphanedRun : List Event :=
  [.addRow 0 [[1], [2]], .advance 0 false, .take [2] false, .close]

theorem close_orphans_claimed :
    ¬ ∀ p : Prefetcher, (machine oneAhead).Reachable (fun _ _ => True) p →
      ∀ (k : Nat) (e : Entry), p.queue[k]? = some e → e.promise = some .pending →
        e.state = .queued ∨ e.state = .fetching := by
  intro hall
  have hrun : ∃ p, (machine oneAhead).run {} orphanedRun = some p ∧
      (p.queue[1]?).map (fun e => (e.promise, e.state)) = some (some .pending, .aborted) :=
    ⟨_, rfl, rfl⟩
  obtain ⟨p, hrun, hentry⟩ := hrun
  have hreach : (machine oneAhead).Reachable (fun _ _ => True) p := (Machine.Reachable.init rfl).run hrun
  obtain ⟨e, he, hpair⟩ := Option.map_eq_some_iff.mp hentry
  obtain ⟨hpromise, hstate⟩ := Prod.mk.inj hpair
  have hserved := hall p hreach 1 e he hpromise
  rw [hstate] at hserved
  rcases hserved with hqueued | hfetching
  · cases hqueued
  · cases hfetching

end Prefetcher
end FastFirebird.Prefetch
