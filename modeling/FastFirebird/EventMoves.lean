import FastFirebird.EventCounts

/-! What a step of the event channel can do in a run in which no listener is closed in its own handler,
none is added while the last one is closed and nothing is thrown, and what such runs keep: which
listeners are open, who waits for which request, and that a listener's requests end with its cancel. -/
namespace FastFirebird.Events

/-- What the runs leave out: a listener that is closed in a handler of its own delivery, or again
before it is closed, a subscription under way when the last listener is closed, names that a block
cannot hold or that listeners use themselves, handlers that throw, an `'error'` that nobody handles,
and counters that overflow. -/
def Good (s : Channel) : Event → Prop
  | .subscribe names => ∀ name ∈ names, Plain name ∧ name ≠ postEvent
  | .close rid => (∀ rest handling, s.loop ≠ .delivering rid rest handling) ∧
    ∀ l, s.listeners[rid]? = some l → l.closed = true → rid ∈ s.completed
  | .resume i => ∀ rid, s.answered[i]? = some (.cancel rid) → s.subs = [] → s.starting = []
  | .post name => Counts.get s.posted name + 1 < 2 ^ 32
  | .deliver => ∀ rid count rest l, s.loop = .delivering rid ((errorEvent, count) :: rest) .idle →
    s.listeners[rid]? = some l → errorEvent ∈ l.baselined → l.counts.get errorEvent < count →
      l.errorHandled = true
  | .thrown => False
  | _ => True

/-! ### What a step can do -/

/-- The steps of the runs. -/
inductive Moves (s : Channel) : Channel → Prop
  | subscribe {names : List Text} : s.closed = false →
    (∀ name ∈ names, Plain name ∧ name ≠ postEvent) → Moves s { s with starting := s.starting ++ [names] }
  | registered {i : Nat} {names : List Text} {epb : Bytes} : s.starting[i]? = some names →
    buildEpb (Channel.newListener names).counts = .ok epb → s.closed = false →
    Moves s { s with
      starting := s.starting.eraseIdx i
      listeners := s.listeners ++ [Channel.newListener names]
      subs := s.subs ++ [s.listeners.length]
      waiting := s.waiting ++ [.arm s.listeners.length epb] }
  | again {rid : Nat} : rid ∈ s.completed → Moves s { s with completed := s.completed ++ [rid] }
  | close {rid : Nat} {l : Listener} : s.listeners[rid]? = some l → rid ∈ s.subs →
    (∀ rest handling, s.loop ≠ .delivering rid rest handling) →
    Moves s { s with
      listeners := s.listeners.modify rid fun l => { l with closed := true }
      subs := s.subs.erase rid
      waiting := s.waiting ++ [.cancel rid] }
  | write {op : Op} {waiting : List Op} : s.running = none → s.waiting = op :: waiting →
    Moves s (({ s with running := some op, waiting, written := s.written ++ [op.request] } :
      Channel).serve op.request)
  | answer {op : Op} : s.running = some op →
    Moves s { s with running := none, answered := s.answered ++ [op] }
  | resume {i : Nat} {op : Op} : s.answered[i]? = some op →
    (∀ rid, op = .cancel rid → s.subs = [] → s.starting = []) →
    Moves s (({ s with answered := s.answered.eraseIdx i } : Channel).resumed op)
  | post {name : Text} : Counts.get s.posted name + 1 < 2 ^ 32 →
    Moves s { s with posted := Counts.set name (Counts.get s.posted name + 1) s.posted }
  | fire {i rid : Nat} {epb packet : Bytes} : s.armed[i]? = some (rid, epb) →
    s.packet epb = .ok packet →
    Moves s { s with armed := s.armed.eraseIdx i, packets := s.packets ++ [(rid, packet)] }
  | ended : s.loop = .reading → Moves s { s with loop := .ended }
  | received {rid : Nat} {epb : Bytes} {packets : List (Nat × Bytes)} {counts : Counts} :
    s.loop = .reading → s.packets = (rid, epb) :: packets → rid ∈ s.subs →
    parseEpb epb = .ok counts → Moves s { s with packets, loop := .delivering rid counts .idle }
  | ignored {rid : Nat} {epb : Bytes} {packets : List (Nat × Bytes)} : s.loop = .reading →
    s.packets = (rid, epb) :: packets → rid ∉ s.subs → Moves s { s with packets }
  | deliver {rid count : Nat} {name : Text} {rest : Counts} {l : Listener} {handling : Handling} :
    s.loop = .delivering rid ((name, count) :: rest) .idle → s.listeners[rid]? = some l →
    (l.deliver name count).2 = some handling →
    Moves s { s with
      listeners := s.listeners.modify rid fun l => (l.deliver name count).1
      loop := .delivering rid rest handling }
  | handleError {rid : Nat} {handled : Bool} : Moves s { s with
      listeners := s.listeners.modify rid fun l => { l with errorHandled := handled } }
  | posts {rid count : Nat} {name : Text} {rest : Counts} :
    s.loop = .delivering rid rest (.named name count) →
    Moves s { s with
      listeners := s.listeners.modify rid (Listener.post name count)
      loop := .delivering rid rest .post }
  | handled {rid : Nat} {rest : Counts} : s.loop = .delivering rid rest .post →
    Moves s { s with loop := .delivering rid rest .idle }
  | rearm {rid : Nat} {l : Listener} {epb : Bytes} : s.loop = .delivering rid [] .idle →
    s.listeners[rid]? = some l → buildEpb l.counts = .ok epb →
    Moves s { s with waiting := s.waiting ++ [.rearm rid epb], loop := .rearming rid }

/-! ### Which listeners are open -/

/-- The listeners of the channel: open as long as they are registered. -/
structure Opened (s : Channel) : Prop where
  nodup : s.subs.Nodup
  known : ∀ rid ∈ s.subs, rid < s.listeners.length
  open_iff : ∀ rid l, s.listeners[rid]? = some l → (l.closed = false ↔ rid ∈ s.subs)
  closed : s.closed = true → s.subs = [] ∧ s.starting = []
  plain : ∀ names ∈ s.starting, ∀ name ∈ names, Plain name

theorem eraseIdx_split {α : Type} {l : List α} {i : Nat} {a : α} (h : l[i]? = some a) :
    ∃ front back, l = front ++ a :: back ∧ l.eraseIdx i = front ++ back := by
  obtain ⟨hi, hget⟩ := List.getElem?_eq_some_iff.mp h
  refine ⟨l.take i, l.drop (i + 1), ?_, List.eraseIdx_eq_take_drop_succ l i⟩
  rw [← hget, List.getElem_cons_drop, List.take_append_drop]

theorem get_modify {l : List Listener} {f : Listener → Listener} {rid r : Nat} {x : Listener}
    (h : (l.modify rid f)[r]? = some x) :
    ∃ y, l[r]? = some y ∧ x = if rid = r then f y else y := by
  rw [List.getElem?_modify] at h
  obtain ⟨y, hy, rfl⟩ := Option.map_eq_some_iff.mp h
  exact ⟨y, hy, rfl⟩

section Opened

variable {s s' : Channel}

/-- Only these parts matter. -/
theorem Opened.same (h : Opened s) (hsubs : s'.subs = s.subs) (hlisteners : s'.listeners = s.listeners)
    (hclosed : s'.closed = s.closed) (hstarting : s'.starting = s.starting) : Opened s' := by
  refine ⟨?_, ?_, ?_, ?_, ?_⟩
  · rw [hsubs]
    exact h.nodup
  · rw [hsubs, hlisteners]
    exact h.known
  · rw [hsubs, hlisteners]
    exact h.open_iff
  · rw [hclosed, hsubs, hstarting]
    exact h.closed
  · rw [hstarting]
    exact h.plain

/-- Listeners change, but none is opened or closed. -/
theorem Opened.touch (h : Opened s) {rid : Nat} {f : Listener → Listener} (hf : ∀ l, (f l).closed = l.closed)
    (hsubs : s'.subs = s.subs) (hlisteners : s'.listeners = s.listeners.modify rid f)
    (hclosed : s'.closed = s.closed) (hstarting : s'.starting = s.starting) : Opened s' := by
  refine ⟨hsubs ▸ h.nodup, fun r hr => ?_, fun r x hx => ?_, ?_, hstarting ▸ h.plain⟩
  · rw [hlisteners, List.length_modify]
    exact h.known r (hsubs ▸ hr)
  · rw [hlisteners] at hx
    obtain ⟨y, hy, rfl⟩ := get_modify hx
    rw [hsubs, ← h.open_iff r y hy]
    split
    · rw [hf]
    · exact Iff.rfl
  · rw [hclosed, hsubs, hstarting]
    exact h.closed

theorem Opened.moves (h : Opened s) (hm : Moves s s') : Opened s' := by
  cases hm with
  | subscribe hclosed hplain =>
    refine ⟨h.nodup, h.known, h.open_iff, fun hc => ?_, fun names hnames => ?_⟩
    · rw [hclosed] at hc
      cases hc
    · rcases List.mem_append.mp hnames with hnames | hnames
      · exact h.plain names hnames
      · rw [List.mem_singleton.mp hnames]
        exact fun name hname => (hplain name hname).1
  | @registered i names epb hi hbuild hclosed =>
    have hnew : s.listeners.length ∉ s.subs := fun hmem => Nat.lt_irrefl _ (h.known _ hmem)
    refine ⟨?_, fun rid hrid => ?_, fun rid l hl => ?_, fun hc => ?_, fun names' hnames => ?_⟩
    · exact List.nodup_append.mpr ⟨h.nodup, List.nodup_singleton _, fun a ha b hb hab =>
        hnew (List.mem_singleton.mp hb ▸ hab ▸ ha)⟩
    · rw [List.length_append, List.length_singleton]
      rcases List.mem_append.mp hrid with hrid | hrid
      · exact Nat.lt_succ_of_lt (h.known rid hrid)
      · rw [List.mem_singleton.mp hrid]
        exact Nat.lt_succ_self _
    · rw [List.mem_append, List.mem_singleton]
      rcases Nat.lt_or_ge rid s.listeners.length with hlt | hge
      · rw [List.getElem?_append_left hlt] at hl
        rw [h.open_iff rid l hl]
        exact ⟨.inl, fun hmem => hmem.resolve_right (Nat.ne_of_lt hlt)⟩
      · rw [List.getElem?_append_right hge] at hl
        have hzero : rid = s.listeners.length := by
          have hlt := (List.getElem?_eq_some_iff.mp hl).1
          rw [List.length_singleton] at hlt
          omega
        rw [hzero, Nat.sub_self] at hl
        obtain rfl := Option.some.inj hl
        exact ⟨fun _ => .inr hzero, fun _ => rfl⟩
    · rw [hclosed] at hc
      cases hc
    · exact h.plain names' (List.mem_of_mem_eraseIdx hnames)
  | again _ => exact h.same rfl rfl rfl rfl
  | @close rid l hl hmem _ =>
    refine ⟨h.nodup.erase rid, fun r hr => ?_, fun r x hx => ?_, fun hc => ?_, h.plain⟩
    · rw [List.length_modify]
      exact h.known r (List.mem_of_mem_erase hr)
    · obtain ⟨y, hy, rfl⟩ := get_modify hx
      rw [h.nodup.mem_erase_iff]
      split
      · rename_i heq
        constructor
        · intro hf
          cases hf
        · intro hmem
          exact absurd heq.symm hmem.1
      · rename_i hne
        rw [h.open_iff r y hy]
        exact ⟨fun hr => ⟨Ne.symm hne, hr⟩, fun hr => hr.2⟩
    · rw [(h.closed hc).1] at hmem
      cases hmem
  | @write op waiting _ _ =>
    cases op with
    | arm rid epb => exact h.same rfl rfl rfl rfl
    | rearm rid epb => exact h.same rfl rfl rfl rfl
    | cancel rid => exact h.same rfl rfl rfl rfl
  | answer _ => exact h.same rfl rfl rfl rfl
  | @resume i op hop hstarting =>
    cases op with
    | arm rid epb => exact h.same rfl rfl rfl rfl
    | rearm rid epb => exact h.same rfl rfl rfl rfl
    | cancel rid =>
      refine ⟨h.nodup, h.known, h.open_iff, fun hc => ?_, h.plain⟩
      rcases Bool.or_eq_true _ _ ▸ hc with hc | hc
      · exact h.closed hc
      · have hempty : s.subs = [] := List.isEmpty_iff.mp hc
        exact ⟨hempty, hstarting rid rfl hempty⟩
  | post _ => exact h.same rfl rfl rfl rfl
  | fire _ _ => exact h.same rfl rfl rfl rfl
  | ended _ => exact h.same rfl rfl rfl rfl
  | received _ _ _ _ => exact h.same rfl rfl rfl rfl
  | ignored _ _ _ => exact h.same rfl rfl rfl rfl
  | @deliver rid count name rest l handling _ hl _ =>
    exact h.touch (fun l => (Listener.deliver_counts l name count).2) rfl rfl rfl rfl
  | @handleError rid handled =>
    exact @Opened.touch s _ h rid (fun l => { l with errorHandled := handled }) (fun _ => rfl) rfl rfl rfl rfl
  | @posts rid count name rest _ =>
    exact @Opened.touch s _ h rid (Listener.post name count) (fun _ => rfl) rfl rfl rfl rfl
  | handled _ => exact h.same rfl rfl rfl rfl
  | rearm _ _ _ => exact h.same rfl rfl rfl rfl

end Opened

/-! ### Who waits for which request -/

def Op.armRid : Op → Option Nat
  | .arm rid _ => some rid
  | _ => none

def Op.rearmRid : Op → Option Nat
  | .rearm rid _ => some rid
  | _ => none

def Loop.rearmRid : Loop → List Nat
  | .rearming rid => [rid]
  | _ => []

/-- The requests whose callers have not gone on. -/
def Channel.inFlight (s : Channel) : List Op := s.answered ++ (s.running.toList ++ s.waiting)

/-- Each listener is armed for the first time by its own `subscribe`, which has not returned yet, and
again by the read loop, which waits for it. -/
structure Flights (returned : List Nat) (inFlight : List Op) (known : Nat) (loop : Loop) : Prop where
  arms : (returned ++ inFlight.filterMap Op.armRid).Nodup
  known : ∀ rid ∈ returned ++ inFlight.filterMap Op.armRid, rid < known
  rearms : inFlight.filterMap Op.rearmRid = loop.rearmRid

section Flights

variable {returned : List Nat} {inFlight front behind : List Op} {known rid : Nat} {loop loop' : Loop}
  {epb : Bytes}

theorem Flights.goOn (h : Flights returned inFlight known loop) (hloop : loop'.rearmRid = loop.rearmRid) :
    Flights returned inFlight known loop' :=
  ⟨h.arms, h.known, by rw [hloop]; exact h.rearms⟩

theorem Flights.arm (h : Flights returned inFlight known loop) :
    Flights returned (inFlight ++ [.arm known epb]) (known + 1) loop := by
  have hnew : known ∉ returned ++ inFlight.filterMap Op.armRid :=
    fun hmem => Nat.lt_irrefl _ (h.known _ hmem)
  have harms : returned ++ (inFlight ++ [Op.arm known epb]).filterMap Op.armRid =
      returned ++ inFlight.filterMap Op.armRid ++ [known] := by
    rw [List.filterMap_append, List.append_assoc]
    rfl
  refine ⟨?_, ?_, ?_⟩
  · rw [harms]
    exact List.nodup_append.mpr ⟨h.arms, List.nodup_singleton _, fun a ha b hb hab =>
      hnew (List.mem_singleton.mp hb ▸ hab ▸ ha)⟩
  · rw [harms]
    intro r hr
    rcases List.mem_append.mp hr with hr | hr
    · exact Nat.lt_succ_of_lt (h.known r hr)
    · rw [List.mem_singleton.mp hr]
      exact Nat.lt_succ_self _
  · rw [List.filterMap_append]
    exact (List.append_nil _).trans h.rearms

theorem Flights.rearm (h : Flights returned inFlight known loop) (hloop : loop.rearmRid = []) :
    Flights returned (inFlight ++ [.rearm rid epb]) known (.rearming rid) := by
  have harms : (inFlight ++ [Op.rearm rid epb]).filterMap Op.armRid = inFlight.filterMap Op.armRid := by
    rw [List.filterMap_append]
    exact List.append_nil _
  refine ⟨by rw [harms]; exact h.arms, by rw [harms]; exact h.known, ?_⟩
  rw [List.filterMap_append, h.rearms, hloop]
  rfl

theorem Flights.cancel (h : Flights returned inFlight known loop) :
    Flights returned (inFlight ++ [.cancel rid]) known loop := by
  have harms : (inFlight ++ [Op.cancel rid]).filterMap Op.armRid = inFlight.filterMap Op.armRid := by
    rw [List.filterMap_append]
    exact List.append_nil _
  refine ⟨by rw [harms]; exact h.arms, by rw [harms]; exact h.known, ?_⟩
  rw [List.filterMap_append]
  exact (List.append_nil _).trans h.rearms

/-- `subscribe` returns. -/
theorem Flights.armed (h : Flights returned (front ++ .arm rid epb :: behind) known loop) :
    Flights (returned ++ [rid]) (front ++ behind) known loop := by
  have hperm : (returned ++ [rid] ++ (front ++ behind).filterMap Op.armRid).Perm
      (returned ++ (front ++ .arm rid epb :: behind).filterMap Op.armRid) := by
    have harm : (Op.arm rid epb :: behind).filterMap Op.armRid = rid :: behind.filterMap Op.armRid := rfl
    rw [List.filterMap_append, List.filterMap_append, harm, List.append_assoc]
    apply List.Perm.append_left
    show (rid :: (front.filterMap Op.armRid ++ behind.filterMap Op.armRid)).Perm _
    exact List.perm_middle.symm
  refine ⟨hperm.nodup_iff.mpr h.arms, fun r hr => h.known r (hperm.mem_iff.mp hr), ?_⟩
  have hrearms := h.rearms
  rw [List.filterMap_append] at hrearms ⊢
  exact hrearms

/-- The caller of another request goes on. -/
theorem Flights.dropped {op : Op} (h : Flights returned (front ++ op :: behind) known loop)
    (harm : op.armRid = none) (hrearms : (front ++ behind).filterMap Op.rearmRid = loop'.rearmRid) :
    Flights returned (front ++ behind) known loop' := by
  have harms : (front ++ op :: behind).filterMap Op.armRid = (front ++ behind).filterMap Op.armRid := by
    rw [List.filterMap_append, List.filterMap_append, List.filterMap_cons, harm]
  refine ⟨?_, ?_, hrearms⟩
  · rw [← harms]
    exact h.arms
  · rw [← harms]
    exact h.known

theorem Flights.cancelled (h : Flights returned (front ++ .cancel rid :: behind) known loop) :
    Flights returned (front ++ behind) known loop := by
  apply h.dropped rfl
  have hrearms := h.rearms
  rw [List.filterMap_append] at hrearms ⊢
  exact hrearms

/-- The read loop goes on: it has no other request. -/
theorem Flights.rearmed (h : Flights returned (front ++ .rearm rid epb :: behind) known loop)
    (hloop : loop'.rearmRid = []) : Flights returned (front ++ behind) known loop' := by
  apply h.dropped rfl
  have hcons : (Op.rearm rid epb :: behind).filterMap Op.rearmRid =
      rid :: behind.filterMap Op.rearmRid := rfl
  have hlength := congrArg List.length h.rearms
  rw [List.filterMap_append, hcons, List.length_append, List.length_cons] at hlength
  have hone : loop.rearmRid.length ≤ 1 := by
    cases loop with
    | reading => exact Nat.zero_le _
    | delivering _ _ _ => exact Nat.zero_le _
    | rearming _ => exact Nat.le_refl _
    | ended => exact Nat.zero_le _
  rw [hloop, List.filterMap_append, List.append_eq_nil_iff]
  exact ⟨List.length_eq_zero_iff.mp (by omega), List.length_eq_zero_iff.mp (by omega)⟩

theorem inFlight_waiting {answered waiting : List Op} {running : Option Op} (op : Op) :
    answered ++ (running.toList ++ (waiting ++ [op])) =
      answered ++ (running.toList ++ waiting) ++ [op] := by
  simp

variable {s s' : Channel}

theorem Flights.moves (h : Flights s.returned s.inFlight s.listeners.length s.loop) (hm : Moves s s') :
    Flights s'.returned s'.inFlight s'.listeners.length s'.loop := by
  cases hm with
  | subscribe _ _ => exact h
  | @registered i names epb _ _ _ =>
    rw [Channel.inFlight, inFlight_waiting, List.length_append]
    exact h.arm
  | again _ => exact h
  | close _ _ _ =>
    rw [Channel.inFlight, inFlight_waiting, List.length_modify]
    exact h.cancel
  | @write op waiting hrunning hwaiting =>
    have hflight : s.inFlight = s.answered ++ ([op] ++ waiting) := by
      rw [Channel.inFlight, hrunning, hwaiting]
      rfl
    rw [hflight] at h
    cases op with
    | arm rid epb => exact h
    | rearm rid epb => exact h
    | cancel rid => exact h
  | @answer op hrunning =>
    have hflight : s.inFlight = (s.answered ++ [op]) ++ ([] ++ s.waiting) := by
      rw [Channel.inFlight, hrunning]
      simp
    rw [hflight] at h
    exact h
  | @resume i op hop _ =>
    obtain ⟨front, back, hsplit, herase⟩ := eraseIdx_split hop
    have hflight : s.inFlight = front ++ op :: (back ++ (s.running.toList ++ s.waiting)) := by
      rw [Channel.inFlight, hsplit]
      simp
    have hrest : s.answered.eraseIdx i ++ (s.running.toList ++ s.waiting) =
        front ++ (back ++ (s.running.toList ++ s.waiting)) := by
      rw [herase, List.append_assoc]
    rw [hflight] at h
    cases op with
    | arm rid epb =>
      show Flights (s.returned ++ [rid]) (s.answered.eraseIdx i ++ (s.running.toList ++ s.waiting)) _ _
      rw [hrest]
      exact h.armed
    | rearm rid epb =>
      show Flights s.returned (s.answered.eraseIdx i ++ (s.running.toList ++ s.waiting)) _
        (if s.closed then .ended else .reading)
      rw [hrest]
      apply h.rearmed
      split
      · rfl
      · rfl
    | cancel rid =>
      show Flights s.returned (s.answered.eraseIdx i ++ (s.running.toList ++ s.waiting)) _ _
      rw [hrest]
      exact h.cancelled
  | post _ => exact h
  | fire _ _ => exact h
  | ended hloop => exact h.goOn (by rw [hloop]; rfl)
  | received hloop _ _ _ => exact h.goOn (by rw [hloop]; rfl)
  | ignored _ _ _ => exact h
  | deliver hloop _ _ =>
    rw [List.length_modify]
    exact h.goOn (by rw [hloop]; rfl)
  | handleError =>
    rw [List.length_modify]
    exact h
  | posts hloop =>
    rw [List.length_modify]
    exact h.goOn (by rw [hloop]; rfl)
  | handled hloop => exact h.goOn (by rw [hloop]; rfl)
  | rearm hloop _ _ =>
    rw [Channel.inFlight, inFlight_waiting]
    exact h.rearm (by rw [hloop]; rfl)

end Flights

/-! ### The requests of a listener -/

/-- The requests that are written, and those that will be. -/
def Channel.history (s : Channel) : List Request := s.written ++ s.waiting.map Op.request

/-- The close of a listener has got to the server. -/
def Channel.Cancelled (s : Channel) (rid : Nat) : Prop :=
  rid ∈ s.completed ∨ .cancel rid ∈ s.answered ∨ s.running = some (.cancel rid)

/-- The requests of a listener end with its cancel. -/
structure Requests (s : Channel) : Prop where
  known : ∀ r ∈ s.history, r.rid < s.listeners.length
  opened : ∀ rid ∈ s.subs, .cancelEvents rid ∉ s.history
  closed : ∀ rid, rid < s.listeners.length → rid ∉ s.subs → ∃ before,
    s.history.filter (·.rid = rid) = before ++ [.cancelEvents rid] ∧ .cancelEvents rid ∉ before
  done : ∀ rid, s.Cancelled rid → rid < s.listeners.length ∧ rid ∉ s.subs ∧
    ∀ op ∈ s.waiting, op.request.rid ≠ rid

theorem nothing_behind {α : Type} {a : α} {front back before : List α} (hnot : a ∉ before)
    (h : front ++ a :: back = before ++ [a]) : back = [] := by
  rcases List.eq_nil_or_concat back with hnil | ⟨back', last, hback⟩
  · exact hnil
  · rw [hback, List.concat_eq_append, ← List.cons_append, ← List.append_assoc] at h
    obtain ⟨hfront, -⟩ := List.append_inj' h rfl
    apply absurd _ hnot
    rw [← hfront]
    exact List.mem_append.mpr (.inr List.mem_cons_self)

theorem requests_of_other {r : Request} {rid : Nat} (h : ¬ r.rid = rid) :
    [r].filter (·.rid = rid) = [] := by
  simp [h]

section Requests

variable {s s' : Channel}

/-- Only these parts matter. -/
theorem Requests.same (h : Requests s) (hlisteners : s'.listeners.length = s.listeners.length)
    (hsubs : s'.subs = s.subs) (hhistory : s'.history = s.history) (hwaiting : s'.waiting = s.waiting)
    (hdone : ∀ rid, s'.Cancelled rid → s.Cancelled rid) : Requests s' := by
  refine ⟨?_, ?_, ?_, ?_⟩
  · rw [hhistory, hlisteners]
    exact h.known
  · rw [hsubs, hhistory]
    exact h.opened
  · rw [hlisteners, hsubs, hhistory]
    exact h.closed
  · rw [hlisteners, hsubs, hwaiting]
    exact fun rid hrid => h.done rid (hdone rid hrid)

theorem history_waiting {op : Op} (hwritten : s'.written = s.written)
    (hwaiting : s'.waiting = s.waiting ++ [op]) : s'.history = s.history ++ [op.request] := by
  rw [Channel.history, Channel.history, hwritten, hwaiting, List.map_append, List.append_assoc]
  rfl

/-- An open listener asks for one more request. -/
theorem Requests.ask (h : Requests s) {op : Op} {rid : Nat} (hrid : rid ∈ s.subs)
    (hop : op.request.rid = rid) (hnew : op.request ≠ .cancelEvents rid) (hknown : rid < s.listeners.length)
    (hlisteners : s'.listeners.length = s.listeners.length) (hsubs : s'.subs = s.subs)
    (hwritten : s'.written = s.written) (hwaiting : s'.waiting = s.waiting ++ [op])
    (hdone : ∀ rid, s'.Cancelled rid → s.Cancelled rid) : Requests s' := by
  have hhistory := history_waiting hwritten hwaiting
  refine ⟨fun r hr => ?_, fun other hother hmem => ?_, fun other hlt hnot => ?_, fun other hother => ?_⟩
  · rw [hhistory] at hr
    rw [hlisteners]
    rcases List.mem_append.mp hr with hr | hr
    · exact h.known r hr
    · rw [List.mem_singleton.mp hr, hop]
      exact hknown
  · rw [hsubs] at hother
    rw [hhistory] at hmem
    rcases List.mem_append.mp hmem with hmem | hmem
    · exact h.opened other hother hmem
    · have heq : op.request = .cancelEvents other := (List.mem_singleton.mp hmem).symm
      have hsame : rid = other := by
        rw [← hop, heq]
        rfl
      exact hnew (hsame ▸ heq)
  · rw [hlisteners] at hlt
    rw [hsubs] at hnot
    have hne : ¬ op.request.rid = other := by
      rw [hop]
      intro heq
      exact hnot (heq ▸ hrid)
    rw [hhistory, List.filter_append, requests_of_other hne, List.append_nil]
    exact h.closed other hlt hnot
  · obtain ⟨hlt, hnot, hwait⟩ := h.done other (hdone other hother)
    rw [hlisteners, hsubs, hwaiting]
    refine ⟨hlt, hnot, fun op' hop' => ?_⟩
    rcases List.mem_append.mp hop' with hop' | hop'
    · exact hwait op' hop'
    · rw [List.mem_singleton.mp hop', hop]
      intro heq
      exact hnot (heq ▸ hrid)

/-- A new listener is armed. -/
theorem Requests.arm (h : Requests s) {epb : Bytes}
    (hlisteners : s'.listeners.length = s.listeners.length + 1)
    (hsubs : s'.subs = s.subs ++ [s.listeners.length]) (hwritten : s'.written = s.written)
    (hwaiting : s'.waiting = s.waiting ++ [.arm s.listeners.length epb])
    (hdone : ∀ rid, s'.Cancelled rid → s.Cancelled rid) : Requests s' := by
  have hhistory : s'.history = s.history ++ [.queEvents s.listeners.length epb] :=
    history_waiting hwritten hwaiting
  refine ⟨fun r hr => ?_, fun rid hrid hmem => ?_, fun rid hlt hnot => ?_, fun rid hrid => ?_⟩
  · rw [hhistory] at hr
    rw [hlisteners]
    rcases List.mem_append.mp hr with hr | hr
    · exact Nat.lt_succ_of_lt (h.known r hr)
    · rw [List.mem_singleton.mp hr]
      exact Nat.lt_succ_self _
  · rw [hhistory] at hmem
    have hold : .cancelEvents rid ∈ s.history := by
      rcases List.mem_append.mp hmem with hmem | hmem
      · exact hmem
      · cases List.mem_singleton.mp hmem
    rw [hsubs] at hrid
    rcases List.mem_append.mp hrid with hrid | hrid
    · exact h.opened rid hrid hold
    · have hlt : rid < s.listeners.length := h.known _ hold
      rw [List.mem_singleton.mp hrid] at hlt
      exact Nat.lt_irrefl _ hlt
  · rw [hlisteners] at hlt
    rw [hsubs, List.mem_append, List.mem_singleton] at hnot
    have hne : ¬ (Request.queEvents s.listeners.length epb).rid = rid := fun heq => hnot (.inr heq.symm)
    have hold : rid < s.listeners.length := by omega
    rw [hhistory, List.filter_append, requests_of_other hne, List.append_nil]
    exact h.closed rid hold fun hrid => hnot (.inl hrid)
  · obtain ⟨hlt, hnot, hwait⟩ := h.done rid (hdone rid hrid)
    rw [hlisteners, hsubs, hwaiting]
    refine ⟨Nat.lt_succ_of_lt hlt, fun hmem => ?_, fun op hop => ?_⟩
    · rcases List.mem_append.mp hmem with hmem | hmem
      · exact hnot hmem
      · exact Nat.ne_of_lt hlt (List.mem_singleton.mp hmem)
    · rcases List.mem_append.mp hop with hop | hop
      · exact hwait op hop
      · rw [List.mem_singleton.mp hop]
        exact Nat.ne_of_gt hlt

/-- A listener is closed. -/
theorem Requests.cancel (h : Requests s) (hopened : Opened s) {rid : Nat} (hrid : rid ∈ s.subs)
    (hlisteners : s'.listeners.length = s.listeners.length) (hsubs : s'.subs = s.subs.erase rid)
    (hwritten : s'.written = s.written) (hwaiting : s'.waiting = s.waiting ++ [.cancel rid])
    (hdone : ∀ rid, s'.Cancelled rid → s.Cancelled rid) : Requests s' := by
  have hhistory : s'.history = s.history ++ [.cancelEvents rid] := history_waiting hwritten hwaiting
  refine ⟨fun r hr => ?_, fun other hother hmem => ?_, fun other hlt hnot => ?_, fun other hother => ?_⟩
  · rw [hhistory] at hr
    rw [hlisteners]
    rcases List.mem_append.mp hr with hr | hr
    · exact h.known r hr
    · rw [List.mem_singleton.mp hr]
      exact hopened.known rid hrid
  · rw [hhistory] at hmem
    rw [hsubs] at hother
    obtain ⟨hne, hother⟩ := hopened.nodup.mem_erase_iff.mp hother
    rcases List.mem_append.mp hmem with hmem | hmem
    · exact h.opened other hother hmem
    · exact hne (Request.cancelEvents.inj (List.mem_singleton.mp hmem))
  · rw [hlisteners] at hlt
    rw [hsubs] at hnot
    rw [hhistory, List.filter_append]
    by_cases heq : rid = other
    · subst heq
      refine ⟨s.history.filter (·.rid = rid), ?_, fun hmem => h.opened rid hrid (List.mem_filter.mp hmem).1⟩
      rw [List.filter_cons_of_pos (by simp [Request.rid]), List.filter_nil]
    · have hne : ¬ (Request.cancelEvents rid).rid = other := heq
      rw [requests_of_other hne, List.append_nil]
      exact h.closed other hlt fun hother => hnot (hopened.nodup.mem_erase_iff.mpr ⟨Ne.symm heq, hother⟩)
  · obtain ⟨hlt, hnot, hwait⟩ := h.done other (hdone other hother)
    rw [hlisteners, hsubs, hwaiting]
    refine ⟨hlt, fun hmem => hnot (List.mem_of_mem_erase hmem), fun op hop => ?_⟩
    rcases List.mem_append.mp hop with hop | hop
    · exact hwait op hop
    · rw [List.mem_singleton.mp hop]
      intro heq
      exact hnot (heq ▸ hrid)

/-- The lock takes up the first request that waits. -/
theorem Requests.write (h : Requests s) {op : Op} {waiting : List Op}
    (hop : s.waiting = op :: waiting) (hlisteners : s'.listeners = s.listeners) (hsubs : s'.subs = s.subs)
    (hwritten : s'.written = s.written ++ [op.request]) (hwaiting : s'.waiting = waiting)
    (hdone : ∀ rid, s'.Cancelled rid → s.Cancelled rid ∨ op = .cancel rid) : Requests s' := by
  have hold : s.history = s.written ++ op.request :: waiting.map Op.request := by
    rw [Channel.history, hop]
    rfl
  have hhistory : s'.history = s.history := by
    rw [hold, Channel.history, hwritten, hwaiting, List.append_assoc]
    rfl
  refine ⟨?_, ?_, ?_, fun rid hrid => ?_⟩
  · rw [hhistory, hlisteners]
    exact h.known
  · rw [hsubs, hhistory]
    exact h.opened
  · rw [hlisteners, hsubs, hhistory]
    exact h.closed
  · rw [hlisteners, hsubs, hwaiting]
    rcases hdone rid hrid with hcancelled | rfl
    · obtain ⟨hlt, hnot, hall⟩ := h.done rid hcancelled
      exact ⟨hlt, hnot, fun op' hop' => hall op' (hop ▸ List.mem_cons_of_mem _ hop')⟩
    · -- the cancel itself has been written: nothing of its listener is behind it
      have hmem : .cancelEvents rid ∈ s.history := by
        rw [hold]
        exact List.mem_append.mpr (.inr List.mem_cons_self)
      have hlt : rid < s.listeners.length := h.known _ hmem
      have hnot : rid ∉ s.subs := fun hrid => h.opened rid hrid hmem
      refine ⟨hlt, hnot, fun op' hop' heq => ?_⟩
      obtain ⟨before, hbefore, hfresh⟩ := h.closed rid hlt hnot
      rw [hold, List.filter_append, List.filter_cons_of_pos (by simp [Request.rid, Op.request])]
        at hbefore
      have hnil := nothing_behind hfresh hbefore
      have hin : op'.request ∈ (waiting.map Op.request).filter (·.rid = rid) :=
        List.mem_filter.mpr ⟨List.mem_map_of_mem hop', by simpa using heq⟩
      rw [hnil] at hin
      cases hin

theorem Requests.moves (h : Requests s) (hopened : Opened s)
    (hdelivering : ∀ rid rest handling, s.loop = .delivering rid rest handling → rid ∈ s.subs)
    (hm : Moves s s') : Requests s' := by
  cases hm with
  | subscribe _ _ => exact h.same rfl rfl rfl rfl fun _ hrid => hrid
  | registered _ _ _ => exact h.arm (List.length_append) rfl rfl rfl fun _ hrid => hrid
  | @again rid hrid =>
    refine h.same rfl rfl rfl rfl ?_
    rintro other (hother | hother)
    · rcases List.mem_append.mp hother with hother | hother
      · exact .inl hother
      · rw [List.mem_singleton.mp hother]
        exact .inl hrid
    · exact .inr hother
  | close _ hrid _ => exact h.cancel hopened hrid (List.length_modify _ _ _) rfl rfl rfl fun _ hrid => hrid
  | @write op waiting hrunning hwaiting =>
    have hdone : ∀ {other : Nat}, other ∈ s.completed ∨ Op.cancel other ∈ s.answered ∨
        some op = some (.cancel other) → s.Cancelled other ∨ op = .cancel other := by
      rintro other (hother | hother | hother)
      · exact .inl (.inl hother)
      · exact .inl (.inr (.inl hother))
      · exact .inr (Option.some.inj hother)
    cases op with
    | arm _ _ => exact h.write hwaiting rfl rfl rfl rfl fun _ => hdone
    | rearm _ _ => exact h.write hwaiting rfl rfl rfl rfl fun _ => hdone
    | cancel _ => exact h.write hwaiting rfl rfl rfl rfl fun _ => hdone
  | @answer op hrunning =>
    refine h.same rfl rfl rfl rfl ?_
    rintro rid (hrid | hrid | hrid)
    · exact .inl hrid
    · rcases List.mem_append.mp hrid with hrid | hrid
      · exact .inr (.inl hrid)
      · rw [← List.mem_singleton.mp hrid] at hrunning
        exact .inr (.inr hrunning)
    · cases hrid
  | @resume i op hop _ =>
    have hmem : op ∈ s.answered := List.mem_of_getElem? hop
    have herased : ∀ {o : Op}, o ∈ s.answered.eraseIdx i → o ∈ s.answered := List.mem_of_mem_eraseIdx
    cases op with
    | arm r epb => exact h.same rfl rfl rfl rfl fun rid hrid => hrid.imp_right (.imp_left herased)
    | rearm r epb => exact h.same rfl rfl rfl rfl fun rid hrid => hrid.imp_right (.imp_left herased)
    | cancel r =>
      refine h.same rfl rfl rfl rfl ?_
      rintro rid (hrid | hrid)
      · rcases List.mem_append.mp hrid with hrid | hrid
        · exact .inl hrid
        · rw [← List.mem_singleton.mp hrid] at hmem
          exact .inr (.inl hmem)
      · exact .inr (hrid.imp_left herased)
  | post _ => exact h.same rfl rfl rfl rfl fun _ hrid => hrid
  | fire _ _ => exact h.same rfl rfl rfl rfl fun _ hrid => hrid
  | ended _ => exact h.same rfl rfl rfl rfl fun _ hrid => hrid
  | received _ _ _ _ => exact h.same rfl rfl rfl rfl fun _ hrid => hrid
  | ignored _ _ _ => exact h.same rfl rfl rfl rfl fun _ hrid => hrid
  | deliver _ _ _ => exact h.same (List.length_modify _ _ _) rfl rfl rfl fun _ hrid => hrid
  | handleError => exact h.same (List.length_modify _ _ _) rfl rfl rfl fun _ hrid => hrid
  | posts _ => exact h.same (List.length_modify _ _ _) rfl rfl rfl fun _ hrid => hrid
  | handled _ => exact h.same rfl rfl rfl rfl fun _ hrid => hrid
  | @rearm rid l epb hloop hl _ =>
    have hrid : rid ∈ s.subs := hdelivering rid [] .idle hloop
    have hknown : rid < s.listeners.length := hopened.known rid hrid
    have hnew : (Op.rearm rid epb).request ≠ .cancelEvents rid := nofun
    exact h.ask hrid rfl hnew hknown rfl rfl rfl rfl fun _ hother => hother

end Requests

end FastFirebird.Events
