import FastFirebird.Isolation
import Mathlib.Data.List.Nodup

/-! Which calls keep a transaction alive until the last request that names it has been written,
whatever commits, rollbacks, restarts, automatic upgrades and reconnects come in between. -/
namespace FastFirebird.Attachment

/-- The object of the transaction that a captured scope is on. -/
def Scope.tx (scope : Scope) : Nat :=
  match scope.txAlive with
  | .runContext tx _ | .notFinished tx => tx

/-- The object of the transaction whose handle a section sends. -/
def Job.touched (job : Job) : Option Nat :=
  match job.captured with
  | some scope => some scope.tx
  | none => job.tx

/-- Part of a `restart`. -/
def Job.reopens : Job → Option Nat
  | .restartFinish tx _ _ _ | .restartStart tx _ => some tx
  | _ => none

def Job.finishes : Job → Option Nat
  | .finish tx _ => some tx
  | _ => none

/-- The section looks at `txAlive` when it begins. -/
def Job.checks : Job → Bool
  | .blob _ _ checks => checks
  | _ => false

/-- The sections that have been asked for, the running one first. -/
def jobs (s : Attachment) : List Job := (s.running.map (·.job)).toList ++ s.queue

/-- A `restart` of the transaction is under way, or one has ended it and failed to start the next. -/
def Restarting (s : Attachment) (i : Nat) : Prop :=
  (∃ job ∈ s.jobs, job.reopens = some i) ∨ ∃ t, s.txs[i]? = some t ∧ t.reopening = true

/-- The transaction is open, and no `restart` of it is under way. -/
def Open (s : Attachment) (i : Nat) : Prop :=
  (∃ t, s.txs[i]? = some t ∧ t.finished = false) ∧ ¬s.Restarting i

/-- The transaction has not been restarted since the scope was captured. -/
def Uncycled (s : Attachment) (scope : Scope) : Prop :=
  ∀ t, s.txs[scope.tx]? = some t → scope.txGeneration = t.generation

/-- What `txAlive` does not look at: it knows nothing of a `restart` under way, and that of a prepared
statement nothing of restarts at all. -/
def Readable (s : Attachment) (scope : Scope) : Prop :=
  ¬s.Restarting scope.tx ∧ ∀ i, scope.txAlive = .notFinished i → s.Uncycled scope

def Continuation.tx : Continuation → Option Nat
  | .replay tx | .use tx _ | .exec _ tx => some tx
  | .construct _ _ => none

/-- What the code does not check for itself: nothing is asked of a transaction while a `restart` of
it is under way; a transaction that a prepared statement is run in, or that a call goes on with, is
open, and so is the one of a stream that goes on; a lazy blob of a prepared statement is not read
behind a restart; and no section begins behind a reconnect with an object from before it. -/
def Orderly (s : Attachment) : Event → Prop
  | .run tx | .executeBatch tx | .retaining tx _ | .finish tx _ | .dispose tx | .restart tx _ _ =>
    ¬s.Restarting tx
  | .preparedRun _ tx => s.Open tx
  | .streamNext k => ∀ scope, s.streams[k]? = some scope → s.Open scope.tx ∧ s.Uncycled scope
  | .prefetchSlice k => ∀ b, s.blobs[k]? = some b → s.Open b.scope.tx ∧ s.Uncycled b.scope
  | .readBlob k | .pullBlob k => ∀ b, s.blobs[k]? = some b → s.Readable b.scope
  | .prefetch ks => ∀ k ∈ ks, ∀ b, s.blobs[k]? = some b → s.Readable b.scope
  | .resume k => ∀ c i, s.continuations[k]? = some c → c.tx = some i → s.Open i
  | .refused readOnly => ∀ r tx t, s.running = some r → r.job = .run tx false →
    s.txs[tx]? = some t → shouldAutoUpgrade t readOnly = true → ¬s.Restarting tx
  | .begin => ∀ job queue, s.queue = job :: queue → ∀ i t, job.touched = some i →
    s.txs[i]? = some t → t.attGeneration = s.generation
  | _ => True

/-! The invariant -/

variable {s s' : Attachment}

/-- Behind a `restart` nothing touches the transaction until the next one is there, and behind a
`commit` or `rollback` nothing does that does not look at `txAlive` first. -/
def Job.Before (a b : Job) : Prop :=
  ∀ i, b.touched = some i → a.reopens ≠ some i ∧ (a.finishes = some i → b.checks = true)

/-- A request does not come behind the end of its transaction. -/
def Entry.Before (a b : Entry) : Prop :=
  ∀ r h, b = .wrote r → r.tx = some h → a ≠ .ended h.serial

def IsLive (s : Attachment) (serial : Nat) : Prop := ∃ l ∈ s.live, l.serial = serial

/-- No two transactions share a serial, and none has it again. -/
structure Numbered (s : Attachment) : Prop where
  handles : ∀ t ∈ s.txs, t.currentHandle.serial < s.serials
  lives : ∀ l ∈ s.live, l.serial < s.serials
  nodup : (s.live.map (·.serial)).Nodup
  gone : ∀ n, Entry.ended n ∈ s.trace → n < s.serials ∧ ¬s.IsLive n
  distinct : ∀ (i j : Nat) (t u : Tx), s.txs[i]? = some t → s.txs[j]? = some u →
    t.currentHandle.serial = u.currentHandle.serial → i = j

/-- The scope is one of a stream, of a lazy blob or of a section. -/
def Holds (s : Attachment) (scope : Scope) : Prop :=
  scope ∈ s.streams ∨ (∃ b ∈ s.blobs, b.scope = scope) ∨
    (∃ r, s.running = some r ∧ r.scope = some scope) ∨ ∃ job ∈ s.jobs, job.captured = some scope

/-- A scope has captured the handle that its transaction had then. -/
structure Traced (s : Attachment) (scope : Scope) : Prop where
  known : scope.tx < s.txs.length
  closure : ∀ i g, scope.txAlive = .runContext i g → g = scope.txGeneration
  past : ∀ t, s.txs[scope.tx]? = some t → scope.txGeneration ≤ t.generation
  handle : ∀ t, s.txs[scope.tx]? = some t → scope.txGeneration = t.generation →
    scope.txHandle = t.currentHandle

structure Sound (s : Attachment) : Prop where
  numbered : s.Numbered
  trace : s.trace.Pairwise Entry.Before
  order : s.jobs.Pairwise Job.Before
  known : ∀ job ∈ s.jobs, ∀ i, job.touched = some i → i < s.txs.length
  scopes : ∀ scope, s.Holds scope → s.Traced scope
  current : ∀ job ∈ s.jobs, ∀ scope, job.captured = some scope →
    (∃ i g, job.checks = true ∧ scope.txAlive = .runContext i g) ∨ s.Uncycled scope
  finishing : ∀ job ∈ s.jobs, ∀ i t, job.finishes = some i → s.txs[i]? = some t → t.finished = true
  resting : ∀ (i : Nat) (t : Tx), s.txs[i]? = some t → t.reopening = true → ∀ job ∈ s.jobs, job.touched ≠ some i
  request : ∀ r, s.running = some r → ∀ i t, r.job.tx = some i → s.txs[i]? = some t →
    r.request.tx = some t.currentHandle
  alive : ∀ (i : Nat) (t : Tx), s.txs[i]? = some t → t.attGeneration = s.generation →
    (t.finished = false ∧ t.reopening = false ∨
      ∃ job ∈ s.jobs, job.touched = some i ∧ job.checks = false) →
    s.IsLive t.currentHandle.serial
  outdated : ∀ t ∈ s.txs, t.attGeneration ≤ s.generation ∧
    (s.reconnecting → t.attGeneration < s.generation)

/-- A scope stays as it is as long as the transactions do. -/
theorem Traced.keep {scope : Scope} (h : s.Traced scope) (htxs : s'.txs = s.txs) : s'.Traced scope := by
  constructor
  · rw [htxs]
    exact h.known
  · exact h.closure
  · rw [htxs]
    exact h.past
  · rw [htxs]
    exact h.handle

theorem touched_of_finishes {job : Job} {i : Nat} (h : job.finishes = some i) :
    job.touched = some i ∧ job.checks = false := by
  cases job with
  | finish tx rollback => exact ⟨h, rfl⟩
  | _ => cases h

theorem jobs_enqueue (job : Job) : (s.enqueue job).jobs = s.jobs ++ [job] := by
  unfold jobs enqueue
  rw [List.append_assoc]

/-- Sections come to an end, scopes come and go, and all else stays. -/
theorem Sound.frame (h : Sound s) (htxs : s'.txs = s.txs) (hlive : s'.live = s.live)
    (hserials : s'.serials = s.serials) (hgen : s'.generation = s.generation)
    (htrace : s'.trace = s.trace) (hjobs : s'.jobs.Sublist s.jobs)
    (hholds : ∀ scope, s'.Holds scope → s.Traced scope)
    (hrunning : s'.running = s.running ∨ s'.running = none) : Sound s' := by
  have hlive' (n : Nat) : s'.IsLive n ↔ s.IsLive n := by
    unfold IsLive
    rw [hlive]
  have hrun (r : Section) (hr : s'.running = some r) : s.running = some r := by
    rcases hrunning with hsame | hnone
    · exact hsame ▸ hr
    · rw [hnone] at hr
      cases hr
  constructor
  · obtain ⟨hh, hl, hn, hg, hd⟩ := h.numbered
    constructor
    · rw [htxs, hserials]
      exact hh
    · rw [hlive, hserials]
      exact hl
    · rw [hlive]
      exact hn
    · intro n hended
      rw [htrace] at hended
      rw [hserials, hlive']
      exact hg n hended
    · rw [htxs]
      exact hd
  · rw [htrace]
    exact h.trace
  · exact h.order.sublist hjobs
  · intro job hjob i hi
    rw [htxs]
    exact h.known job (hjobs.mem hjob) i hi
  · intro scope hscope
    exact (hholds scope hscope).keep htxs
  · intro job hjob scope hscope
    unfold Uncycled
    rw [htxs]
    exact h.current job (hjobs.mem hjob) scope hscope
  · intro job hjob i t hi ht
    rw [htxs] at ht
    exact h.finishing job (hjobs.mem hjob) i t hi ht
  · intro i t ht hreopening job hjob
    rw [htxs] at ht
    exact h.resting i t ht hreopening job (hjobs.mem hjob)
  · intro r hr i t hi ht
    rw [htxs] at ht
    exact h.request r (hrun r hr) i t hi ht
  · intro i t ht hg huse
    rw [htxs] at ht
    rw [hgen] at hg
    rw [hlive']
    refine h.alive i t ht hg (huse.imp_right ?_)
    rintro ⟨job, hjob, htouched⟩
    exact ⟨job, hjobs.mem hjob, htouched⟩
  · intro t ht
    rw [htxs] at ht
    rw [hgen]
    obtain ⟨hle, hlt⟩ := h.outdated t ht
    refine ⟨hle, ?_⟩
    rintro ⟨r, hr, hjob⟩
    exact hlt ⟨r, hrun r hr, hjob⟩

/-! Sections that are asked for -/

theorem holds_enqueue {job : Job} {scope : Scope} (h : (s.enqueue job).Holds scope) :
    s.Holds scope ∨ job.captured = some scope := by
  rcases h with h | h | h | ⟨j, hj, hscope⟩
  · exact .inl (.inl h)
  · exact .inl (.inr (.inl h))
  · exact .inl (.inr (.inr (.inl h)))
  · rw [jobs_enqueue] at hj
    rcases List.mem_append.mp hj with hj | hj
    · exact .inl (.inr (.inr (.inr ⟨j, hj, hscope⟩)))
    · rw [List.mem_singleton.mp hj] at hscope
      exact .inr hscope

theorem Sound.enqueue (h : Sound s) {job : Job} (hbefore : ∀ a ∈ s.jobs, a.Before job)
    (hknown : ∀ i, job.touched = some i → i < s.txs.length)
    (hscope : ∀ scope, job.captured = some scope → s.Traced scope ∧
      ((∃ i g, job.checks = true ∧ scope.txAlive = .runContext i g) ∨ s.Uncycled scope))
    (hfinishing : ∀ i t, job.finishes = some i → s.txs[i]? = some t → t.finished = true)
    (hresting : ∀ i t, job.touched = some i → s.txs[i]? = some t → t.reopening = false)
    (halive : ∀ i t, job.touched = some i → job.checks = false → s.txs[i]? = some t →
      t.attGeneration = s.generation → s.IsLive t.currentHandle.serial) : Sound (s.enqueue job) := by
  have hmem {j : Job} (hj : j ∈ (s.enqueue job).jobs) : j ∈ s.jobs ∨ j = job := by
    rw [jobs_enqueue] at hj
    exact (List.mem_append.mp hj).imp_right List.mem_singleton.mp
  refine ⟨⟨h.numbered.handles, h.numbered.lives, h.numbered.nodup, h.numbered.gone,
    h.numbered.distinct⟩, h.trace, ?_, ?_, ?_, ?_, ?_, ?_, h.request, ?_, h.outdated⟩
  · rw [jobs_enqueue]
    refine List.pairwise_append.mpr ⟨h.order, List.pairwise_singleton _ _, ?_⟩
    intro a ha b hb
    rw [List.mem_singleton.mp hb]
    exact hbefore a ha
  · intro j hj
    rcases hmem hj with hj | rfl
    · exact h.known j hj
    · exact hknown
  · intro scope hholds
    have htraced : s.Traced scope := by
      rcases holds_enqueue hholds with hold | hnew
      · exact h.scopes scope hold
      · exact (hscope scope hnew).1
    exact htraced.keep rfl
  · intro j hj
    rcases hmem hj with hj | rfl
    · exact h.current j hj
    · exact fun scope hcaptured => (hscope scope hcaptured).2
  · intro j hj
    rcases hmem hj with hj | rfl
    · exact h.finishing j hj
    · exact hfinishing
  · intro i t ht hreopening j hj
    rcases hmem hj with hj | rfl
    · exact h.resting i t ht hreopening j hj
    · intro htouched
      rw [hresting i t htouched ht] at hreopening
      cases hreopening
  · intro i t ht hg huse
    rcases huse with hopen | ⟨j, hj, htouched, hchecks⟩
    · exact h.alive i t ht hg (.inl hopen)
    · rcases hmem hj with hj | rfl
      · exact h.alive i t ht hg (.inr ⟨j, hj, htouched, hchecks⟩)
      · exact halive i t htouched hchecks ht hg

/-- A section that no transaction has to wait for. -/
theorem Sound.enqueue_apart (h : Sound s) {job : Job} (htouched : job.touched = none)
    (hcaptured : job.captured = none) (hfinishes : job.finishes = none) : Sound (s.enqueue job) := by
  apply h.enqueue
  · intro a _ i hi
    rw [htouched] at hi
    cases hi
  · intro i hi
    rw [htouched] at hi
    cases hi
  · intro scope hscope
    rw [hcaptured] at hscope
    cases hscope
  · intro i t hi
    rw [hfinishes] at hi
    cases hi
  · intro i t hi
    rw [htouched] at hi
    cases hi
  · intro i t hi
    rw [htouched] at hi
    cases hi

theorem not_reopening {i : Nat} (h : ¬s.Restarting i) {t : Tx} (ht : s.txs[i]? = some t) :
    t.reopening = false := by
  by_contra hreopening
  exact h (.inr ⟨t, ht, eq_true_of_ne_false hreopening⟩)

/-- A section that uses a transaction, and is asked for while it is open. -/
theorem Sound.enqueue_use (h : Sound s) {job : Job} {i : Nat} (htouched : job.touched = some i)
    (hopen : s.Open i) (hfinishes : job.finishes = none)
    (hscope : ∀ scope, job.captured = some scope → s.Traced scope ∧ s.Uncycled scope) :
    Sound (s.enqueue job) := by
  obtain ⟨⟨t, ht, hfinished⟩, hstill⟩ := hopen
  have hreopening : t.reopening = false := not_reopening hstill ht
  have hsame {j : Nat} {u : Tx} (hj : job.touched = some j) (hu : s.txs[j]? = some u) : i = j ∧ t = u := by
    obtain rfl := Option.some.inj (htouched.symm.trans hj)
    exact ⟨rfl, Option.some.inj (ht.symm.trans hu)⟩
  apply h.enqueue
  · intro a ha j hj
    obtain rfl := Option.some.inj (htouched.symm.trans hj)
    refine ⟨fun hreopens => hstill (.inl ⟨a, ha, hreopens⟩), fun hends => ?_⟩
    have hdone : t.finished = true := h.finishing a ha i t hends ht
    rw [hfinished] at hdone
    cases hdone
  · intro j hj
    obtain rfl := Option.some.inj (htouched.symm.trans hj)
    exact (List.getElem?_eq_some_iff.mp ht).1
  · exact fun scope hcaptured => ⟨(hscope scope hcaptured).1, .inr (hscope scope hcaptured).2⟩
  · intro j u hj
    rw [hfinishes] at hj
    cases hj
  · intro j u hj hu
    obtain ⟨rfl, rfl⟩ := hsame hj hu
    exact hreopening
  · intro j u hj _ hu hg
    obtain ⟨rfl, rfl⟩ := hsame hj hu
    exact h.alive i t ht hg (.inl ⟨hfinished, hreopening⟩)

/-! What happens to the object of one transaction -/

theorem getElem?_modifyTx {i j : Nat} {f : Tx → Tx} {u : Tx} (h : (s.modifyTx i f).txs[j]? = some u) :
    ∃ t, s.txs[j]? = some t ∧ (i = j ∧ u = f t ∨ i ≠ j ∧ u = t) := by
  unfold modifyTx at h
  dsimp only at h
  rw [List.getElem?_modify] at h
  obtain ⟨t, ht, hu⟩ := Option.map_eq_some_iff.mp h
  refine ⟨t, ht, ?_⟩
  by_cases hij : i = j
  · rw [if_pos hij] at hu
    exact .inl ⟨hij, hu.symm⟩
  · rw [if_neg hij] at hu
    exact .inr ⟨hij, hu.symm⟩

theorem length_modifyTx (i : Nat) (f : Tx → Tx) : (s.modifyTx i f).txs.length = s.txs.length :=
  List.length_modify _ _ _

/-- A change that leaves the transaction its handle. -/
structure Steady (f : Tx → Tx) : Prop where
  handle : ∀ t, (f t).currentHandle = t.currentHandle
  generation : ∀ t, (f t).generation = t.generation
  attGeneration : ∀ t, (f t).attGeneration = t.attGeneration

theorem Sound.modifyTx (h : Sound s) {i : Nat} {f : Tx → Tx} (hf : Steady f)
    (hfinishing : ∀ t, s.txs[i]? = some t → ∀ job ∈ s.jobs, job.finishes = some i →
      (f t).finished = true)
    (hresting : ∀ t, s.txs[i]? = some t → (f t).reopening = true → ∀ job ∈ s.jobs,
      job.touched ≠ some i)
    (halive : ∀ t, s.txs[i]? = some t → t.attGeneration = s.generation → (f t).finished = false →
      (f t).reopening = false → s.IsLive t.currentHandle.serial) : Sound (s.modifyTx i f) := by
  have hkept {j : Nat} {u : Tx} (hu : (s.modifyTx i f).txs[j]? = some u) : ∃ t, s.txs[j]? = some t ∧
      u.currentHandle = t.currentHandle ∧ u.generation = t.generation ∧
      u.attGeneration = t.attGeneration := by
    obtain ⟨t, ht, ⟨-, rfl⟩ | ⟨-, rfl⟩⟩ := getElem?_modifyTx hu
    · exact ⟨t, ht, hf.handle t, hf.generation t, hf.attGeneration t⟩
    · exact ⟨u, ht, rfl, rfl, rfl⟩
  refine ⟨⟨?_, h.numbered.lives, h.numbered.nodup, h.numbered.gone, ?_⟩, h.trace, h.order, ?_, ?_, ?_,
    ?_, ?_, ?_, ?_, ?_⟩
  · intro u hu
    obtain ⟨j, hj⟩ := List.mem_iff_getElem?.mp hu
    obtain ⟨t, ht, hhandle, -⟩ := hkept hj
    rw [hhandle]
    exact h.numbered.handles t (List.mem_of_getElem? ht)
  · intro j k u v hu hv hserial
    obtain ⟨t, ht, hhandle, -⟩ := hkept hu
    obtain ⟨t', ht', hhandle', -⟩ := hkept hv
    rw [hhandle, hhandle'] at hserial
    exact h.numbered.distinct j k t t' ht ht' hserial
  · intro job hjob j hj
    rw [length_modifyTx]
    exact h.known job hjob j hj
  · intro scope hholds
    obtain ⟨hknown, hclosure, hpast, hhandle⟩ := h.scopes scope hholds
    refine ⟨?_, hclosure, ?_, ?_⟩
    · rw [length_modifyTx]
      exact hknown
    · intro u hu
      obtain ⟨t, ht, -, hgeneration, -⟩ := hkept hu
      rw [hgeneration]
      exact hpast t ht
    · intro u hu hsame
      obtain ⟨t, ht, hh, hgeneration, -⟩ := hkept hu
      rw [hgeneration] at hsame
      rw [hh]
      exact hhandle t ht hsame
  · intro job hjob scope hscope
    refine (h.current job hjob scope hscope).imp_right ?_
    intro huncycled u hu
    obtain ⟨t, ht, -, hgeneration, -⟩ := hkept hu
    rw [hgeneration]
    exact huncycled t ht
  · intro job hjob j u hj hu
    obtain ⟨t, ht, ⟨rfl, rfl⟩ | ⟨-, rfl⟩⟩ := getElem?_modifyTx hu
    · exact hfinishing t ht job hjob hj
    · exact h.finishing job hjob j u hj ht
  · intro j u hu hreopening job hjob
    obtain ⟨t, ht, ⟨rfl, rfl⟩ | ⟨-, rfl⟩⟩ := getElem?_modifyTx hu
    · exact hresting t ht hreopening job hjob
    · exact h.resting j u ht hreopening job hjob
  · intro r hr j u hj hu
    obtain ⟨t, ht, hhandle, -⟩ := hkept hu
    rw [hhandle]
    exact h.request r hr j t hj ht
  · intro j u hu hg huse
    obtain ⟨t, ht, ⟨rfl, rfl⟩ | ⟨-, rfl⟩⟩ := getElem?_modifyTx hu
    · rw [hf.attGeneration] at hg
      rw [hf.handle]
      rcases huse with ⟨hfinished, hreopening⟩ | hjob
      · exact halive t ht hg hfinished hreopening
      · exact h.alive i t ht hg (.inr hjob)
    · exact h.alive j u ht hg huse
  · intro u hu
    obtain ⟨j, hj⟩ := List.mem_iff_getElem?.mp hu
    obtain ⟨t, ht, -, -, hgeneration⟩ := hkept hj
    rw [hgeneration]
    exact h.outdated t (List.mem_of_getElem? ht)

/-- The options of a transaction make no difference. -/
theorem Sound.modifyOptions (h : Sound s) (i : Nat) (strategy : Option TxOptions) :
    Sound (s.modifyTx i fun t => { t with options := strategy.getD t.options }) := by
  refine h.modifyTx ⟨fun _ => rfl, fun _ => rfl, fun _ => rfl⟩ ?_ ?_ ?_
  · exact fun t ht job hjob hends => h.finishing job hjob i t hends ht
  · exact fun t ht hreopening => h.resting i t ht hreopening
  · exact fun t ht hg hfinished hreopening => h.alive i t ht hg (.inl ⟨hfinished, hreopening⟩)

/-- `commit` and `rollback` set `finished` before they wait for the lock. -/
theorem Sound.finish (h : Sound s) {i : Nat} (hopen : s.Open i) (rollback : Bool) :
    Sound (s.finish i rollback) := by
  obtain ⟨⟨t, ht, hfinished⟩, hstill⟩ := hopen
  have hreopening : t.reopening = false := not_reopening hstill ht
  have hset : Sound (s.modifyTx i fun t => { t with finished := true }) := by
    refine h.modifyTx ⟨fun _ => rfl, fun _ => rfl, fun _ => rfl⟩ ?_ ?_ ?_
    · exact fun _ _ _ _ _ => rfl
    · exact fun t ht hreopening => h.resting i t ht hreopening
    · intro t ht hg hdone
      cases hdone
  have hnow {u : Tx} (hu : (s.modifyTx i fun t => { t with finished := true }).txs[i]? = some u) :
      u = { t with finished := true } := by
    obtain ⟨t', ht', ⟨-, rfl⟩ | ⟨hne, -⟩⟩ := getElem?_modifyTx hu
    · rw [Option.some.inj (ht'.symm.trans ht)]
    · exact absurd rfl hne
  apply hset.enqueue
  · intro a ha j hj
    obtain rfl : i = j := Option.some.inj hj
    refine ⟨fun hreopens => hstill (.inl ⟨a, ha, hreopens⟩), fun hends => ?_⟩
    have hdone : t.finished = true := h.finishing a ha i t hends ht
    rw [hfinished] at hdone
    cases hdone
  · intro j hj
    obtain rfl : i = j := Option.some.inj hj
    rw [length_modifyTx]
    exact (List.getElem?_eq_some_iff.mp ht).1
  · intro scope hscope
    cases hscope
  · intro j u hj hu
    obtain rfl : i = j := Option.some.inj hj
    rw [hnow hu]
  · intro j u hj hu
    obtain rfl : i = j := Option.some.inj hj
    rw [hnow hu]
    exact hreopening
  · intro j u hj _ hu hg
    obtain rfl : i = j := Option.some.inj hj
    rw [hnow hu] at hg ⊢
    exact h.alive i t ht hg (.inl ⟨hfinished, hreopening⟩)

/-- The section that held the lock is over. -/
theorem Sound.idle (h : Sound s) : Sound { s with running := none } := by
  refine h.frame rfl rfl rfl rfl rfl (List.sublist_append_right _ _) ?_ (.inr rfl)
  rintro scope (hscope | hscope | ⟨r, hr, -⟩ | ⟨job, hjob, hscope⟩)
  · exact h.scopes scope (.inl hscope)
  · exact h.scopes scope (.inr (.inl hscope))
  · cases hr
  · exact h.scopes scope (.inr (.inr (.inr ⟨job, List.mem_append_right _ hjob, hscope⟩)))

theorem mem_jobs_running {r : Section} (hr : s.running = some r) : r.job ∈ s.jobs := by
  unfold jobs
  rw [hr]
  exact List.mem_cons_self

/-- What is behind the section that holds the lock. -/
theorem Sound.behind (h : Sound s) {r : Section} (hr : s.running = some r) {job : Job}
    (hjob : job ∈ s.queue) : r.job.Before job := by
  have horder := h.order
  unfold jobs at horder
  rw [hr] at horder
  exact (List.pairwise_cons.mp horder).1 job hjob

/-! The ends of transactions -/

/-- A transaction may end once nothing is to be asked of it that does not look first. -/
theorem Sound.ended (h : Sound s) {request : Request}
    (hdone : ∀ i t handle, request.tx = some handle → s.txs[i]? = some t →
      t.currentHandle.serial = handle.serial → (t.finished = true ∨ t.reopening = true) ∧
        ∀ job ∈ s.jobs, job.touched = some i → job.checks = true)
    (hserial : ∀ handle, request.tx = some handle → handle.serial < s.serials) :
    Sound (s.ended request) := by
  unfold Attachment.ended
  split
  · rename_i handle hrequest
    refine ⟨⟨h.numbered.handles, ?_, ?_, ?_, h.numbered.distinct⟩, ?_, h.order, h.known, ?_, h.current,
      h.finishing, h.resting, h.request, ?_, h.outdated⟩
    · exact fun l hl => h.numbered.lives l (List.mem_of_mem_filter hl)
    · exact h.numbered.nodup.sublist (List.filter_sublist.map _)
    · intro n hn
      rcases List.mem_append.mp hn with hn | hn
      · obtain ⟨hlt, hgone⟩ := h.numbered.gone n hn
        refine ⟨hlt, ?_⟩
        rintro ⟨l, hl, hsame⟩
        exact hgone ⟨l, List.mem_of_mem_filter hl, hsame⟩
      · obtain rfl := Entry.ended.inj (List.mem_singleton.mp hn)
        refine ⟨hserial handle hrequest, ?_⟩
        rintro ⟨l, hl, hsame⟩
        exact of_decide_eq_true (List.mem_filter.mp hl).2 hsame
    · refine List.pairwise_append.mpr ⟨h.trace, List.pairwise_singleton _ _, ?_⟩
      intro a _ b hb r hd hwrote
      rw [List.mem_singleton.mp hb] at hwrote
      cases hwrote
    · exact fun scope hholds => (h.scopes scope hholds).keep rfl
    · intro i t ht hg huse
      obtain ⟨l, hl, hsame⟩ := h.alive i t ht hg huse
      refine ⟨l, List.mem_filter.mpr ⟨hl, decide_eq_true ?_⟩, hsame⟩
      intro heq
      obtain ⟨hover, hchecks⟩ := hdone i t handle hrequest ht (hsame.symm.trans heq)
      rcases huse with ⟨hfinished, hreopening⟩ | ⟨job, hjob, htouched, hlooks⟩
      · rcases hover with hover | hover
        · rw [hfinished] at hover
          cases hover
        · rw [hreopening] at hover
          cases hover
      · rw [hchecks job hjob htouched] at hlooks
        cases hlooks
  · exact h

/-- The request of the section is about the transaction that it took its handle from. -/
theorem Sound.names (h : Sound s) {r : Section} (hr : s.running = some r) {i j : Nat} {u : Tx}
    {handle : TxHandle} (hi : r.job.tx = some i) (htouched : r.job.touched = some i)
    (hrequest : r.request.tx = some handle) (hu : s.txs[j]? = some u)
    (hserial : u.currentHandle.serial = handle.serial) : j = i := by
  have hlength : i < s.txs.length := h.known r.job (mem_jobs_running hr) i htouched
  have hsame := h.request r hr i _ hi (List.getElem?_eq_getElem hlength)
  rw [hrequest] at hsame
  rw [Option.some.inj hsame] at hserial
  exact h.numbered.distinct j i u _ hu (List.getElem?_eq_getElem hlength) hserial

theorem Sound.request_numbered (h : Sound s) {r : Section} (hr : s.running = some r) {i : Nat}
    {handle : TxHandle} (hi : r.job.tx = some i) (htouched : r.job.touched = some i)
    (hrequest : r.request.tx = some handle) : handle.serial < s.serials := by
  have hlength : i < s.txs.length := h.known r.job (mem_jobs_running hr) i htouched
  have hsame := h.request r hr i _ hi (List.getElem?_eq_getElem hlength)
  rw [hrequest] at hsame
  rw [Option.some.inj hsame]
  exact h.numbered.handles _ (List.getElem_mem hlength)

theorem Sound.clearTx (h : Sound s) (i : Nat) : Sound (s.clearTx i) := by
  unfold Attachment.clearTx
  split
  · exact h.frame rfl rfl rfl rfl rfl (List.Sublist.refl _) h.scopes (.inl rfl)
  · exact h

/-- A commit or rollback has been accepted. -/
theorem Sound.finished (h : Sound s) {r : Section} (hr : s.running = some r) {i : Nat}
    {rollback : Bool} (hjob : r.job = .finish i rollback) :
    Sound (Attachment.ended r.request { s with running := none }) := by
  have hi : r.job.tx = some i := by rw [hjob]; rfl
  have htouched : r.job.touched = some i := by rw [hjob]; rfl
  have hends : r.job.finishes = some i := by rw [hjob]; rfl
  apply h.idle.ended
  · intro j u handle hrequest hu hserial
    obtain rfl : j = i := h.names hr hi htouched hrequest hu hserial
    refine ⟨.inl (h.finishing r.job (mem_jobs_running hr) j u hends hu), ?_⟩
    intro job hq htouches
    exact (h.behind hr hq j htouches).2 hends
  · exact fun handle hrequest => h.request_numbered hr hi htouched hrequest

/-- The commit or rollback of a `restart` has been accepted. -/
theorem Sound.reopening (h : Sound s) {r : Section} (hr : s.running = some r) {i : Nat}
    {rollback upgrade : Bool} {strategy : Option TxOptions}
    (hjob : r.job = .restartFinish i rollback strategy upgrade) :
    Sound ((Attachment.ended r.request { s with running := none }).modifyTx i fun t => { t with
      options := strategy.getD t.options
      reopening := true }) := by
  have hi : r.job.tx = some i := by rw [hjob]; rfl
  have htouched : r.job.touched = some i := by rw [hjob]; rfl
  have hreopens : r.job.reopens = some i := by rw [hjob]; rfl
  have hfree {job : Job} (hq : job ∈ s.queue) : job.touched ≠ some i := fun htouches =>
    (h.behind hr hq i htouches).1 hreopens
  have hmarked : Sound ({ s with running := none }.modifyTx i fun t => { t with
      options := strategy.getD t.options
      reopening := true }) := by
    refine h.idle.modifyTx ⟨fun _ => rfl, fun _ => rfl, fun _ => rfl⟩ ?_ ?_ ?_
    · exact fun t ht job hq hends => h.idle.finishing job hq i t hends ht
    · exact fun t _ _ job hq => hfree hq
    · intro t ht hg hfinished hreopening
      cases hreopening
  have hswap : (Attachment.ended r.request { s with running := none }).modifyTx i (fun t => { t with
        options := strategy.getD t.options
        reopening := true }) =
      Attachment.ended r.request ({ s with running := none }.modifyTx i fun t => { t with
        options := strategy.getD t.options
        reopening := true }) := by
    unfold Attachment.ended
    cases r.request.tx <;> rfl
  rw [hswap]
  apply hmarked.ended
  · intro j u handle hrequest hu hserial
    obtain ⟨t, ht, hsame⟩ := getElem?_modifyTx hu
    have hsame' : t.currentHandle.serial = handle.serial := by
      rcases hsame with ⟨-, rfl⟩ | ⟨-, rfl⟩
      · exact hserial
      · exact hserial
    obtain rfl : j = i := h.names hr hi htouched hrequest ht hsame'
    refine ⟨.inr ?_, fun job hq htouches => absurd htouches (hfree hq)⟩
    rcases hsame with ⟨-, rfl⟩ | ⟨hne, -⟩
    · rfl
    · exact absurd rfl hne
  · exact fun handle hrequest => h.request_numbered hr hi htouched hrequest

/-! Their beginnings -/

theorem isLive_started (id owner : Nat) {n : Nat} (h : s.IsLive n) : (s.started id owner).2.IsLive n := by
  obtain ⟨l, hl, hsame⟩ := h
  exact ⟨l, List.mem_append_left _ hl, hsame⟩

theorem isLive_new (id owner : Nat) :
    (s.started id owner).2.IsLive (s.started id owner).1.serial :=
  ⟨⟨s.serials, owner, s.conn⟩, List.mem_append_right _ List.mem_cons_self, rfl⟩

theorem Numbered.started (h : Numbered s) (id owner : Nat) : Numbered (s.started id owner).2 := by
  constructor
  · exact fun t ht => Nat.lt_succ_of_lt (h.handles t ht)
  · intro l hl
    rcases List.mem_append.mp hl with hl | hl
    · exact Nat.lt_succ_of_lt (h.lives l hl)
    · rw [List.mem_singleton.mp hl]
      exact Nat.lt_succ_self _
  · have hfresh : s.serials ∉ s.live.map (·.serial) := by
      intro hmem
      obtain ⟨l, hl, hsame⟩ := List.mem_map.mp hmem
      exact absurd hsame (Nat.ne_of_lt (h.lives l hl))
    change ((s.live ++ [Live.mk s.serials owner s.conn]).map Live.serial).Nodup
    rw [List.map_append]
    refine List.nodup_append.mpr ⟨h.nodup, List.pairwise_singleton _ _, ?_⟩
    intro n hn m hm hsame
    rw [List.map_cons, List.map_nil, List.mem_singleton] at hm
    rw [hsame, hm] at hn
    exact hfresh hn
  · intro n hn
    obtain ⟨hlt, hgone⟩ := h.gone n hn
    refine ⟨Nat.lt_succ_of_lt hlt, ?_⟩
    rintro ⟨l, hl, hsame⟩
    rcases List.mem_append.mp hl with hl | hl
    · exact hgone ⟨l, hl, hsame⟩
    · rw [List.mem_singleton.mp hl] at hsame
      exact absurd hsame.symm (Nat.ne_of_lt hlt)
  · exact h.distinct

theorem getElem?_snoc {t u : Tx} {i : Nat} (h : (s.txs ++ [t])[i]? = some u) :
    s.txs[i]? = some u ∨ i = s.txs.length ∧ u = t := by
  rcases Nat.lt_or_ge i s.txs.length with hlt | hge
  · rw [List.getElem?_append_left hlt] at h
    exact .inl h
  · rw [List.getElem?_append_right hge] at h
    obtain ⟨hzero, hu⟩ := List.getElem?_eq_some_iff.mp h
    rw [List.length_singleton] at hzero
    rw [List.getElem_singleton] at hu
    exact .inr ⟨by omega, hu.symm⟩

/-- A transaction that nobody has been given yet. -/
theorem Sound.addTx (h : Sound s) (hstill : ¬s.reconnecting) (id : Nat) (options : TxOptions) :
    Sound { (s.started id s.txs.length).2 with
      txs := s.txs ++ [{
        currentHandle := (s.started id s.txs.length).1
        options := options
        attGeneration := s.generation }] } := by
  have hnumbered := h.numbered.started id s.txs.length
  have hapart {i : Nat} (hi : i < s.txs.length) {u : Tx}
      (hu : (s.txs ++ [{
        currentHandle := (s.started id s.txs.length).1
        options := options
        attGeneration := s.generation }])[i]? = some u) : s.txs[i]? = some u := by
    rcases getElem?_snoc hu with hold | ⟨heq, -⟩
    · exact hold
    · omega
  refine ⟨⟨?_, hnumbered.lives, hnumbered.nodup, hnumbered.gone, ?_⟩, h.trace, h.order, ?_, ?_, ?_, ?_, ?_,
    ?_, ?_, ?_⟩
  · intro u hu
    rcases List.mem_append.mp hu with hu | hu
    · exact hnumbered.handles u hu
    · rw [List.mem_singleton.mp hu]
      exact Nat.lt_succ_self _
  · intro i j u v hu hv hsame
    rcases getElem?_snoc hu with hu | ⟨hi, rfl⟩
    · rcases getElem?_snoc hv with hv | ⟨hj, rfl⟩
      · exact h.numbered.distinct i j u v hu hv hsame
      · have hlt := h.numbered.handles u (List.mem_of_getElem? hu)
        exact absurd hsame (Nat.ne_of_lt hlt)
    · rcases getElem?_snoc hv with hv | ⟨hj, rfl⟩
      · have hlt := h.numbered.handles v (List.mem_of_getElem? hv)
        exact absurd hsame.symm (Nat.ne_of_lt hlt)
      · exact hi.trans hj.symm
  · intro job hjob i hi
    have hlt := h.known job hjob i hi
    rw [List.length_append]
    omega
  · intro scope hholds
    obtain ⟨hknown, hclosure, hpast, hhandle⟩ := h.scopes scope hholds
    refine ⟨?_, hclosure, fun u hu => hpast u (hapart hknown hu), fun u hu => hhandle u (hapart hknown hu)⟩
    rw [List.length_append]
    omega
  · intro job hjob scope hscope
    refine (h.current job hjob scope hscope).imp_right ?_
    intro huncycled u hu
    have hknown := (h.scopes scope (.inr (.inr (.inr ⟨job, hjob, hscope⟩)))).known
    exact huncycled u (hapart hknown hu)
  · intro job hjob i u hi hu
    rcases getElem?_snoc hu with hu | ⟨rfl, rfl⟩
    · exact h.finishing job hjob i u hi hu
    · exact absurd (h.known job hjob _ (touched_of_finishes hi).1) (Nat.lt_irrefl _)
  · intro i u hu hreopening
    rcases getElem?_snoc hu with hu | ⟨rfl, rfl⟩
    · exact h.resting i u hu hreopening
    · cases hreopening
  · intro r hr i u hi hu
    rcases getElem?_snoc hu with hu | ⟨rfl, rfl⟩
    · exact h.request r hr i u hi hu
    · have htouched : r.job.touched = some s.txs.length := by
        cases hjob : r.job <;> rw [hjob] at hi <;> first | exact hi | cases hi
      exact absurd (h.known r.job (mem_jobs_running hr) _ htouched) (Nat.lt_irrefl _)
  · intro i u hu hg huse
    rcases getElem?_snoc hu with hu | ⟨rfl, rfl⟩
    · exact isLive_started id s.txs.length (h.alive i u hu hg huse)
    · exact isLive_new id s.txs.length
  · intro u hu
    rcases List.mem_append.mp hu with hu | hu
    · exact h.outdated u hu
    · rw [List.mem_singleton.mp hu]
      exact ⟨Nat.le_refl _, fun hrec => absurd hrec hstill⟩

theorem Sound.newTransaction (h : Sound s) (hstill : ¬s.reconnecting) (options : TxOptions)
    (after : After) (id : Nat) : Sound (s.newTransaction options after id) := by
  have hnew := h.addTx hstill id options
  cases after with
  | nothing => exact hnew
  | stream =>
    refine hnew.frame rfl rfl rfl rfl rfl (List.Sublist.refl _) ?_ (.inl rfl)
    rintro scope (hscope | hholds)
    · rcases List.mem_append.mp hscope with hscope | hscope
      · exact hnew.scopes scope (.inl hscope)
      · rw [List.mem_singleton.mp hscope]
        have hlast : ∀ u, (s.txs ++ [{
              currentHandle := (s.started id s.txs.length).1
              options := options
              attGeneration := s.generation }])[s.txs.length]? = some u → u = {
              currentHandle := (s.started id s.txs.length).1
              options := options
              attGeneration := s.generation } := by
          intro u hu
          rw [List.getElem?_concat_length] at hu
          exact (Option.some.inj hu).symm
        refine ⟨?_, fun i g hclosure => (by cases hclosure), ?_, ?_⟩
        · change s.txs.length < (s.txs ++ [_]).length
          rw [List.length_append, List.length_singleton]
          omega
        · intro u hu
          rw [hlast u hu]
          exact Nat.le_refl _
        · intro u hu _
          rw [hlast u hu]
          rfl
    · exact hnew.scopes scope (.inr hholds)
  | use prepares => exact hnew.frame rfl rfl rfl rfl rfl (List.Sublist.refl _) hnew.scopes (.inl rfl)
  | exec stmt => exact hnew.frame rfl rfl rfl rfl rfl (List.Sublist.refl _) hnew.scopes (.inl rfl)

/-- A `restart` has its new transaction, and nothing has been asked of it meanwhile. -/
theorem Sound.restarted (h : Sound s) (hidle : s.running = none) {i : Nat}
    (hfree : ∀ job ∈ s.jobs, job.touched ≠ some i) (upgrade : Bool) (id : Nat) :
    Sound (s.restarted i upgrade id) := by
  have hnumbered := h.numbered.started id i
  have hopened : Sound ((s.started id i).2.modifyTx i fun t => { t with
      currentHandle := (s.started id i).1
      generation := t.generation + 1
      finished := false
      reopening := false }) := by
    refine ⟨⟨?_, hnumbered.lives, hnumbered.nodup, hnumbered.gone, ?_⟩, h.trace, h.order, ?_, ?_, ?_, ?_,
      ?_, ?_, ?_, ?_⟩
    · intro u hu
      obtain ⟨j, hj⟩ := List.mem_iff_getElem?.mp hu
      obtain ⟨t, ht, ⟨-, rfl⟩ | ⟨-, rfl⟩⟩ := getElem?_modifyTx hj
      · exact Nat.lt_succ_self _
      · exact hnumbered.handles u (List.mem_of_getElem? ht)
    · intro j k u v hu hv hsame
      obtain ⟨t, ht, ⟨rfl, rfl⟩ | ⟨-, rfl⟩⟩ := getElem?_modifyTx hu
      · obtain ⟨t', ht', ⟨rfl, rfl⟩ | ⟨-, rfl⟩⟩ := getElem?_modifyTx hv
        · rfl
        · have hlt := h.numbered.handles v (List.mem_of_getElem? ht')
          exact absurd hsame.symm (Nat.ne_of_lt hlt)
      · obtain ⟨t', ht', ⟨rfl, rfl⟩ | ⟨-, rfl⟩⟩ := getElem?_modifyTx hv
        · have hlt := h.numbered.handles u (List.mem_of_getElem? ht)
          exact absurd hsame (Nat.ne_of_lt hlt)
        · exact h.numbered.distinct j k u v ht ht' hsame
    · intro job hjob j hj
      rw [length_modifyTx]
      exact h.known job hjob j hj
    · intro scope hholds
      obtain ⟨hknown, hclosure, hpast, hhandle⟩ := h.scopes scope hholds
      refine ⟨?_, hclosure, ?_, ?_⟩
      · rw [length_modifyTx]
        exact hknown
      · intro u hu
        obtain ⟨t, ht, ⟨-, rfl⟩ | ⟨-, rfl⟩⟩ := getElem?_modifyTx hu
        · exact Nat.le_succ_of_le (hpast t ht)
        · exact hpast u ht
      · intro u hu hsame
        obtain ⟨t, ht, ⟨-, rfl⟩ | ⟨-, rfl⟩⟩ := getElem?_modifyTx hu
        · have hle := hpast t ht
          dsimp only at hsame
          omega
        · exact hhandle u ht hsame
    · intro job hjob scope hscope
      have htouched : job.touched = some scope.tx := by
        unfold Job.touched
        rw [show job.captured = some scope from hscope]
      refine (h.current job hjob scope hscope).imp_right ?_
      intro huncycled u hu
      obtain ⟨t, ht, ⟨rfl, -⟩ | ⟨-, rfl⟩⟩ := getElem?_modifyTx hu
      · exact absurd htouched (hfree job hjob)
      · exact huncycled u ht
    · intro job hjob j u hj hu
      have htouched : job.touched = some j := (touched_of_finishes hj).1
      obtain ⟨t, ht, ⟨rfl, -⟩ | ⟨-, rfl⟩⟩ := getElem?_modifyTx hu
      · exact absurd htouched (hfree job hjob)
      · exact h.finishing job hjob j u hj ht
    · intro j u hu hreopening job hjob
      obtain ⟨t, ht, ⟨rfl, rfl⟩ | ⟨-, rfl⟩⟩ := getElem?_modifyTx hu
      · cases hreopening
      · exact h.resting j u ht hreopening job hjob
    · intro r hr
      rw [show ((s.started id i).2.modifyTx i _).running = s.running from rfl, hidle] at hr
      cases hr
    · intro j u hu hg huse
      obtain ⟨t, ht, ⟨rfl, rfl⟩ | ⟨-, rfl⟩⟩ := getElem?_modifyTx hu
      · exact isLive_new id i
      · exact isLive_started id i (h.alive j u ht hg huse)
    · intro u hu
      obtain ⟨j, hj⟩ := List.mem_iff_getElem?.mp hu
      obtain ⟨t, ht, ⟨-, rfl⟩ | ⟨-, rfl⟩⟩ := getElem?_modifyTx hj
      · exact h.outdated t (List.mem_of_getElem? ht)
      · exact h.outdated u (List.mem_of_getElem? ht)
  unfold Attachment.restarted
  cases upgrade with
  | false => exact hopened
  | true => exact hopened.frame rfl rfl rfl rfl rfl (List.Sublist.refl _) hopened.scopes (.inl rfl)

theorem Sound.restart (h : Sound s) {i : Nat} {t : Tx} (ht : s.txs[i]? = some t)
    (hstill : ¬s.Restarting i) (rollback : Bool) (strategy : Option TxOptions) (upgrade : Bool) :
    Sound (s.restart i t rollback strategy upgrade) := by
  unfold Attachment.restart
  split
  · exact h
  · split
    · exact (h.modifyOptions i strategy).enqueue_apart rfl rfl rfl
    · rename_i hfinished
      refine h.enqueue_use (i := i) rfl ⟨⟨t, ht, Bool.eq_false_iff.mpr hfinished⟩, hstill⟩ rfl ?_
      intro scope hscope
      cases hscope

/-! The lock -/

/-- What `txAlive` lets through has not been restarted, as far as it or somebody else has looked. -/
theorem current_of_txAlive {scope : Scope} (htraced : s.Traced scope)
    (huncycled : ∀ i, scope.txAlive = .notFinished i → s.Uncycled scope)
    (halive : s.txAlive scope.txAlive = true) :
    ∃ t, s.txs[scope.tx]? = some t ∧ t.finished = false ∧ scope.txGeneration = t.generation := by
  obtain ⟨t, ht⟩ : ∃ t, s.txs[scope.tx]? = some t := ⟨_, List.getElem?_eq_getElem htraced.known⟩
  refine ⟨t, ht, ?_⟩
  cases hkind : scope.txAlive with
  | runContext i g =>
    have hi : scope.tx = i := by
      unfold Scope.tx
      rw [hkind]
    rw [hkind, txAlive, ← hi, ht] at halive
    simp only [Option.any_some, Bool.and_eq_true, Bool.not_eq_true', beq_iff_eq] at halive
    exact ⟨halive.1.1.1, (htraced.closure i g hkind).symm.trans halive.1.1.2.symm⟩
  | notFinished i =>
    have hi : scope.tx = i := by
      unfold Scope.tx
      rw [hkind]
    rw [hkind, txAlive, ← hi, ht] at halive
    simp only [Option.any_some, Bool.and_eq_true, Bool.not_eq_true'] at halive
    exact ⟨halive.1, huncycled i hkind t ht⟩

/-- Whatever a section names when it begins is alive. -/
theorem Sound.request_live (h : Sound s) {job : Job} {queue : List Job}
    (hqueue : s.queue = job :: queue) (ho : Orderly s .begin)
    (hchecks : ∀ scope, job.captured = some scope → job.checks = true →
      s.txAlive scope.txAlive = true) {handle : TxHandle} (hr : (s.request job).tx = some handle) :
    s.IsLive handle.serial := by
  have hjob : job ∈ s.jobs := List.mem_append_right _ (hqueue ▸ List.mem_cons_self)
  unfold Attachment.request at hr
  split at hr
  · rename_i scope hscope
    obtain rfl := Option.some.inj hr
    have htouched : job.touched = some scope.tx := by
      unfold Job.touched
      rw [hscope]
    have htraced := h.scopes scope (.inr (.inr (.inr ⟨job, hjob, hscope⟩)))
    obtain ⟨t, ht⟩ : ∃ t, s.txs[scope.tx]? = some t := ⟨_, List.getElem?_eq_getElem htraced.known⟩
    have hg : t.attGeneration = s.generation := ho job queue hqueue scope.tx t htouched ht
    cases hlooks : job.checks with
    | false =>
      have huncycled : scope.txGeneration = t.generation := by
        rcases h.current job hjob scope hscope with ⟨i, g, hlooks', -⟩ | huncycled
        · rw [hlooks] at hlooks'
          cases hlooks'
        · exact huncycled t ht
      rw [htraced.handle t ht huncycled]
      exact h.alive scope.tx t ht hg (.inr ⟨job, hjob, htouched, hlooks⟩)
    | true =>
      have huncycled (i : Nat) (hkind : scope.txAlive = .notFinished i) : s.Uncycled scope := by
        rcases h.current job hjob scope hscope with ⟨i', g, -, hkind'⟩ | huncycled
        · rw [hkind] at hkind'
          cases hkind'
        · exact huncycled
      obtain ⟨u, hu, hfinished, hsame⟩ :=
        current_of_txAlive htraced huncycled (hchecks scope hscope hlooks)
      obtain rfl : t = u := Option.some.inj (ht.symm.trans hu)
      have hreopening : t.reopening = false := by
        by_contra hreopening
        exact h.resting scope.tx t ht (eq_true_of_ne_false hreopening) job hjob htouched
      rw [htraced.handle t ht hsame]
      exact h.alive scope.tx t ht hg (.inl ⟨hfinished, hreopening⟩)
  · rename_i hnone
    obtain ⟨i, hi, hhandle⟩ := Option.bind_eq_some_iff.mp hr
    obtain ⟨t, ht, rfl⟩ := Option.map_eq_some_iff.mp hhandle
    have htouched : job.touched = some i := by
      unfold Job.touched
      rw [hnone]
      exact hi
    have hlooks : job.checks = false := by
      cases job <;> first | rfl | cases hi
    exact h.alive i t ht (ho job queue hqueue i t htouched ht) (.inr ⟨job, hjob, htouched, hlooks⟩)

/-- A scope that is captured now. -/
theorem traced_now {i : Nat} {t : Tx} (ht : s.txs[i]? = some t) (alive : TxAlive)
    (hi : (s.scope t alive).tx = i)
    (hclosure : ∀ j g, alive = .runContext j g → g = t.generation) : s.Traced (s.scope t alive) := by
  have hsame (u : Tx) (hu : s.txs[(s.scope t alive).tx]? = some u) : u = t := by
    rw [hi, ht] at hu
    exact (Option.some.inj hu).symm
  refine ⟨?_, hclosure, ?_, ?_⟩
  · rw [hi]
    exact (List.getElem?_eq_some_iff.mp ht).1
  · intro u hu
    rw [hsame u hu]
    exact Nat.le_refl _
  · intro u hu _
    rw [hsame u hu]
    rfl

/-- What the lazy blobs of a section capture is the transaction as it is when the section begins. -/
theorem Sound.section_traced (h : Sound s) {job : Job} (hjob : job ∈ s.jobs) {scope : Scope}
    (hscope : s.sectionScope job = some scope) : s.Traced scope := by
  cases job with
  | run tx replay =>
    obtain ⟨t, ht, rfl⟩ := Option.map_eq_some_iff.mp hscope
    exact traced_now ht _ rfl fun j g hkind => (TxAlive.runContext.inj hkind).2.symm
  | prepared stmt tx own =>
    cases own with
    | false =>
      obtain ⟨t, ht, rfl⟩ := Option.map_eq_some_iff.mp hscope
      apply traced_now ht _ rfl
      intro j g hkind
      cases hkind
    | true => cases hscope
  | stream scope' =>
    obtain rfl := Option.some.inj hscope
    exact h.scopes scope' (.inr (.inr (.inr ⟨_, hjob, rfl⟩)))
  | _ => cases hscope

theorem jobs_begin {job : Job} {queue : List Job} (hidle : s.running = none)
    (hqueue : s.queue = job :: queue) : s.jobs = job :: queue := by
  unfold jobs
  rw [hidle, hqueue]
  rfl

theorem Sound.write (h : Sound s) {job : Job} {queue : List Job} {scope : Option Scope}
    (hjob : job ≠ .reconnect) (hidle : s.running = none) (hqueue : s.queue = job :: queue)
    (ho : Orderly s .begin)
    (hchecks : ∀ scope, job.captured = some scope → job.checks = true →
      s.txAlive scope.txAlive = true)
    (hscope : ∀ scope', scope = some scope' → s.sectionScope job = some scope') :
    Sound { s with
      queue := queue
      running := some ⟨job, s.request job, scope⟩
      trace := s.trace ++ [.wrote (s.request job)] } := by
  have hsame : jobs { s with
      queue := queue
      running := some ⟨job, s.request job, scope⟩
      trace := s.trace ++ [.wrote (s.request job)] } = s.jobs := (jobs_begin hidle hqueue).symm
  have hmem : job ∈ s.jobs := by
    rw [jobs_begin hidle hqueue]
    exact List.mem_cons_self
  refine ⟨⟨h.numbered.handles, h.numbered.lives, h.numbered.nodup, ?_, h.numbered.distinct⟩, ?_, ?_, ?_, ?_, ?_,
    ?_, ?_, ?_, ?_, ?_⟩
  · intro n hn
    rcases List.mem_append.mp hn with hn | hn
    · exact h.numbered.gone n hn
    · cases List.mem_singleton.mp hn
  · refine List.pairwise_append.mpr ⟨h.trace, List.pairwise_singleton _ _, ?_⟩
    intro a ha b hb r handle hwrote hhandle hended
    rw [List.mem_singleton.mp hb] at hwrote
    obtain rfl := Entry.wrote.inj hwrote
    rw [hended] at ha
    exact (h.numbered.gone handle.serial ha).2 (h.request_live hqueue ho hchecks hhandle)
  · rw [hsame]
    exact h.order
  · rw [hsame]
    exact h.known
  · rintro scope' (hheld | hheld | ⟨r, hr, hheld⟩ | ⟨j, hj, hheld⟩)
    · exact (h.scopes scope' (.inl hheld)).keep rfl
    · exact (h.scopes scope' (.inr (.inl hheld))).keep rfl
    · obtain rfl := Option.some.inj hr
      exact (h.section_traced hmem (hscope scope' hheld)).keep rfl
    · rw [hsame] at hj
      exact (h.scopes scope' (.inr (.inr (.inr ⟨j, hj, hheld⟩)))).keep rfl
  · rw [hsame]
    exact h.current
  · rw [hsame]
    exact h.finishing
  · rw [hsame]
    exact h.resting
  · intro r hr i t hi ht
    obtain rfl := Option.some.inj hr
    dsimp only at hi ⊢
    have hnone : job.captured = none := by
      cases job <;> first | rfl | cases hi
    unfold Attachment.request
    rw [hnone]
    dsimp only
    rw [hi, Option.bind_some, ht]
    rfl
  · rw [hsame]
    exact h.alive
  · intro t ht
    refine ⟨(h.outdated t ht).1, ?_⟩
    rintro ⟨r, hr, hrec⟩
    obtain rfl := Option.some.inj hr
    exact absurd hrec hjob

/-- A reconnect begins: nothing made before it is of the attachment's generation. -/
theorem Sound.depart (h : Sound s) {queue : List Job} (hidle : s.running = none)
    (hqueue : s.queue = .reconnect :: queue) :
    Sound { s with
      queue := queue
      generation := s.generation + 1
      inline := s.inline.filter (·.1 ≠ s.conn)
      running := some ⟨.reconnect, ⟨s.conn, none, none, none⟩, none⟩ } := by
  have hsame : jobs { s with
      queue := queue
      generation := s.generation + 1
      inline := s.inline.filter (·.1 ≠ s.conn)
      running := some ⟨.reconnect, ⟨s.conn, none, none, none⟩, none⟩ } = s.jobs :=
    (jobs_begin hidle hqueue).symm
  refine ⟨⟨h.numbered.handles, h.numbered.lives, h.numbered.nodup, h.numbered.gone,
    h.numbered.distinct⟩, h.trace, ?_, ?_, ?_, ?_, ?_, ?_, ?_, ?_, ?_⟩
  · rw [hsame]
    exact h.order
  · rw [hsame]
    exact h.known
  · intro scope hholds
    have hheld : s.Holds scope := by
      rcases hholds with hheld | hheld | ⟨r, hr, hheld⟩ | ⟨j, hj, hheld⟩
      · exact .inl hheld
      · exact .inr (.inl hheld)
      · obtain rfl := Option.some.inj hr
        cases hheld
      · rw [hsame] at hj
        exact .inr (.inr (.inr ⟨j, hj, hheld⟩))
    exact (h.scopes scope hheld).keep rfl
  · rw [hsame]
    exact h.current
  · rw [hsame]
    exact h.finishing
  · rw [hsame]
    exact h.resting
  · intro r hr i t hi
    obtain rfl := Option.some.inj hr
    cases hi
  · intro i t ht hg
    have hle := (h.outdated t (List.mem_of_getElem? ht)).1
    dsimp only at hg
    omega
  · intro t ht
    have hle := (h.outdated t ht).1
    exact ⟨Nat.le_succ_of_le hle, fun _ => Nat.lt_succ_of_le hle⟩

theorem Sound.begin (h : Sound s) (ho : Orderly s .begin) (hs : s.begin = some s') : Sound s' := by
  unfold Attachment.begin at hs
  split at hs
  · rename_i queue hidle hqueue
    obtain rfl := Option.some.inj hs
    exact h.depart hidle hqueue
  · rename_i scope targets queue hidle hqueue
    split at hs
    · rename_i halive
      obtain rfl := Option.some.inj hs
      apply h.write (by simp) hidle hqueue ho
      · intro scope' hscope' _
        rw [← Option.some.inj hscope']
        exact halive
      · intro scope' hscope'
        cases hscope'
    · obtain rfl := Option.some.inj hs
      have hjobs : jobs { s with queue := queue } = queue := by
        unfold jobs
        rw [hidle]
        rfl
      have htail : (jobs { s with queue := queue }).Sublist s.jobs := by
        rw [hjobs, jobs_begin hidle hqueue]
        exact List.sublist_cons_self _ _
      refine h.frame rfl rfl rfl rfl rfl htail ?_ (.inl rfl)
      rintro scope' (hheld | hheld | hheld | ⟨j, hj, hheld⟩)
      · exact h.scopes scope' (.inl hheld)
      · exact h.scopes scope' (.inr (.inl hheld))
      · exact h.scopes scope' (.inr (.inr (.inl hheld)))
      · exact h.scopes scope' (.inr (.inr (.inr ⟨j, htail.mem hj, hheld⟩)))
  · rename_i job queue hreconnect hblob hidle hqueue
    obtain rfl := Option.some.inj hs
    refine h.write ?_ hidle hqueue ho ?_ fun _ hscope => hscope
    · rintro rfl
      exact hreconnect rfl
    · intro scope hscope hlooks
      cases job with
      | blob scope' targets looks =>
        cases looks with
        | true => exact absurd rfl (hblob scope' targets)
        | false => cases hlooks
      | _ => cases hlooks
  · cases hs

/-- With the connection all of its transactions end. -/
theorem Sound.disconnected (h : Sound s) (hs : s.disconnected = some s') : Sound s' := by
  unfold Attachment.disconnected at hs
  split at hs
  · rename_i request scope hrunning
    obtain rfl := Option.some.inj hs
    have hrec : s.reconnecting := ⟨_, hrunning, rfl⟩
    refine ⟨⟨h.numbered.handles, ?_, ?_, ?_, h.numbered.distinct⟩, ?_, h.order, h.known, ?_, h.current,
      h.finishing, h.resting, h.request, ?_, h.outdated⟩
    · exact fun l hl => h.numbered.lives l (List.mem_of_mem_filter hl)
    · exact h.numbered.nodup.sublist (List.filter_sublist.map _)
    · intro n hn
      rcases List.mem_append.mp hn with hn | hn
      · obtain ⟨hlt, hgone⟩ := h.numbered.gone n hn
        refine ⟨hlt, ?_⟩
        rintro ⟨l, hl, hsame⟩
        exact hgone ⟨l, List.mem_of_mem_filter hl, hsame⟩
      · obtain ⟨l, hl, hended⟩ := List.mem_map.mp hn
        obtain rfl : l.serial = n := Entry.ended.inj hended
        obtain ⟨hmem, hconn⟩ := List.mem_filter.mp hl
        refine ⟨h.numbered.lives l hmem, ?_⟩
        rintro ⟨l', hl', hsame⟩
        obtain ⟨hmem', hother⟩ := List.mem_filter.mp hl'
        obtain rfl : l' = l := List.inj_on_of_nodup_map h.numbered.nodup hmem' hmem hsame
        exact of_decide_eq_true hother (of_decide_eq_true hconn)
    · refine List.pairwise_append.mpr ⟨h.trace, ?_, ?_⟩
      · refine List.pairwise_map.mpr (List.Pairwise.imp (R := fun _ _ => True) ?_ ?_)
        · intro a b _ r handle hwrote
          cases hwrote
        · exact List.pairwise_of_forall fun _ _ => trivial
      · intro a _ b hb r handle hwrote
        obtain ⟨l, -, rfl⟩ := List.mem_map.mp hb
        cases hwrote
    · exact fun scope hholds => (h.scopes scope hholds).keep rfl
    · intro i t ht hg
      exact absurd hg (Nat.ne_of_lt ((h.outdated t (List.mem_of_getElem? ht)).2 hrec))
  · cases hs

/-! Blobs -/

/-- Blobs of the same scopes are held, and all else stays. -/
theorem Sound.holdBlobs (h : Sound s) {blobs : List LazyBlob}
    (hblobs : ∀ b ∈ blobs, s.Traced b.scope) (inline : List (Nat × Nat × Nat)) :
    Sound { s with blobs := blobs, inline := inline } := by
  refine h.frame rfl rfl rfl rfl rfl (List.Sublist.refl _) ?_ (.inl rfl)
  rintro scope (hheld | ⟨b, hb, rfl⟩ | hheld)
  · exact h.scopes scope (.inl hheld)
  · exact hblobs b hb
  · exact h.scopes scope (.inr (.inr hheld))

theorem Sound.blob_traced (h : Sound s) {b : LazyBlob} (hb : b ∈ s.blobs) : s.Traced b.scope :=
  h.scopes b.scope (.inr (.inl ⟨b, hb, rfl⟩))

theorem Sound.addBlobs (h : Sound s) {scope : Option Scope}
    (hscope : ∀ scope', scope = some scope' → s.Traced scope') (blobs : List (Nat × Bool)) :
    Sound (s.addBlobs scope blobs) := by
  unfold Attachment.addBlobs
  split
  · rename_i scope'
    apply h.holdBlobs
    intro b hb
    rcases List.mem_append.mp hb with hb | hb
    · exact h.blob_traced hb
    · obtain ⟨x, -, rfl⟩ := List.mem_map.mp hb
      exact hscope scope' rfl
  · exact h

theorem Sound.claim (h : Sound s) (k : Nat) (b : LazyBlob) : Sound (s.claim k b) := by
  apply h.holdBlobs
  intro b' hb'
  rcases mem_modify hb' with hb' | ⟨b₀, hb₀, rfl⟩
  · exact h.blob_traced hb'
  · have htraced : s.Traced b₀.scope := h.blob_traced hb₀
    exact htraced

/-- A scope that `txAlive` lets through, where that is enough, is one of an open transaction. -/
theorem open_of_txAlive {scope : Scope} (htraced : s.Traced scope) (hreadable : s.Readable scope)
    (halive : s.txAlive scope.txAlive = true) : s.Open scope.tx ∧ s.Uncycled scope := by
  obtain ⟨t, ht, hfinished, hsame⟩ := current_of_txAlive htraced hreadable.2 halive
  refine ⟨⟨⟨t, ht, hfinished⟩, hreadable.1⟩, ?_⟩
  intro u hu
  rw [← Option.some.inj (ht.symm.trans hu)]
  exact hsame

theorem Sound.askBlob (h : Sound s) {scope : Scope} (htraced : s.Traced scope)
    (hopen : s.Open scope.tx ∧ s.Uncycled scope) (targets : List Nat) :
    Sound (s.enqueue (.blob scope targets false)) := by
  refine h.enqueue_use rfl hopen.1 rfl ?_
  intro scope' hscope'
  obtain rfl := Option.some.inj hscope'
  exact ⟨htraced, hopen.2⟩

/-- A pull looks at `txAlive` once it has the lock. -/
theorem Sound.pullBlob (h : Sound s) {b : LazyBlob} (hb : b ∈ s.blobs)
    (hreadable : s.Readable b.scope) (k : Nat) : Sound (s.enqueue (.blob b.scope [k] true)) := by
  have htraced := h.blob_traced hb
  obtain ⟨hstill, huncycled⟩ := hreadable
  apply h.enqueue
  · intro a ha i hi
    obtain rfl := Option.some.inj hi
    exact ⟨fun hreopens => hstill (.inl ⟨a, ha, hreopens⟩), fun _ => rfl⟩
  · intro i hi
    obtain rfl := Option.some.inj hi
    exact htraced.known
  · intro scope hscope
    obtain rfl := Option.some.inj hscope
    refine ⟨htraced, ?_⟩
    cases hkind : b.scope.txAlive with
    | runContext i g => exact .inl ⟨i, g, rfl, rfl⟩
    | notFinished i => exact .inr (huncycled i hkind)
  · intro i t hi
    cases hi
  · intro i t hi ht
    obtain rfl := Option.some.inj hi
    exact not_reopening hstill ht
  · intro i t _ hlooks
    cases hlooks

theorem Sound.readBlob (h : Sound s) {k : Nat} {b : LazyBlob} (hb : b ∈ s.blobs)
    (hreadable : s.Readable b.scope) : Sound (s.readBlob k b).2 := by
  unfold Attachment.readBlob
  split
  · exact h
  · split
    · exact h
    · rename_i halive
      split
      · exact h.claim k b
      · rw [Bool.not_eq_true', Bool.not_eq_false] at halive
        have htraced := h.blob_traced hb
        exact h.askBlob htraced (open_of_txAlive htraced hreadable halive) [k]

/-- Claiming inline blobs takes nothing from the transactions. -/
theorem Sound.prefetchClaims {group : List (Nat × LazyBlob)} (h : Sound s) :
    Sound (s.prefetchClaims group).2 ∧ (s.prefetchClaims group).2.txs = s.txs ∧
      (s.prefetchClaims group).2.jobs = s.jobs ∧ ∀ x ∈ (s.prefetchClaims group).1, x ∈ group := by
  induction group generalizing s with
  | nil => exact ⟨h, rfl, rfl, fun x hx => hx⟩
  | cons x rest ih =>
    obtain ⟨k, b⟩ := x
    unfold Attachment.prefetchClaims
    split
    · obtain ⟨hsound, htxs, hjobs, hmem⟩ := ih h
      exact ⟨hsound, htxs, hjobs, fun x hx => List.mem_cons_of_mem _ (hmem x hx)⟩
    · split
      · obtain ⟨hsound, htxs, hjobs, hmem⟩ := ih (h.claim k b)
        exact ⟨hsound, htxs, hjobs, fun x hx => List.mem_cons_of_mem _ (hmem x hx)⟩
      · obtain ⟨hsound, htxs, hjobs, hmem⟩ := ih h
        refine ⟨hsound, htxs, hjobs, fun x hx => ?_⟩
        rcases List.mem_cons.mp hx with rfl | hx
        · exact List.mem_cons_self
        · exact List.mem_cons_of_mem _ (hmem x hx)

theorem Readable.keep {scope : Scope} (h : s.Readable scope) (htxs : s'.txs = s.txs)
    (hjobs : s'.jobs = s.jobs) : s'.Readable scope := by
  unfold Readable Restarting Uncycled at h ⊢
  rw [htxs, hjobs]
  exact h

theorem Sound.prefetch (h : Sound s) {group : List (Nat × LazyBlob)}
    (hgroup : ∀ x ∈ group, x.2 ∈ s.blobs ∧ s.Readable x.2.scope) : Sound (s.prefetch group).2 := by
  obtain ⟨hclaims, htxs, hjobs, hmem⟩ := @Sound.prefetchClaims s group h
  unfold Attachment.prefetch
  split
  · rename_i s₁ heq
    rw [heq] at hclaims
    exact hclaims
  · rename_i k b rest s₁ heq
    rw [heq] at hclaims htxs hjobs hmem
    split
    · rename_i halive
      obtain ⟨hb, hreadable⟩ := hgroup (k, b) (hmem _ List.mem_cons_self)
      have htraced : s₁.Traced b.scope := (h.blob_traced hb).keep htxs
      have hreadable₁ : s₁.Readable b.scope := hreadable.keep htxs hjobs
      exact hclaims.askBlob htraced (open_of_txAlive htraced hreadable₁ halive) _
    · exact hclaims

/-! Responses -/

theorem Sound.ok (h : Sound s) {reply : Reply} (hs : s.ok reply = some s') : Sound s' := by
  unfold Attachment.ok at hs
  obtain ⟨r, hr, hs⟩ := Option.bind_eq_some_iff.mp hs
  have hidle := h.idle
  have hscope (scope : Scope) (hheld : r.scope = some scope) :
      Traced { s with running := none } scope :=
    (h.scopes scope (.inr (.inr (.inl ⟨r, hr, hheld⟩)))).keep rfl
  rcases hjob : r.job with ⟨options, after⟩ | ⟨tx, replay⟩ | tx | ⟨tx, rollback⟩ | ⟨tx, rollback⟩ |
    ⟨tx, rollback, strategy, upgrade⟩ | ⟨tx, upgrade⟩ | ⟨tx, prepares⟩ | ⟨stmt, tx, own⟩ | stmt |
    scope | ⟨scope, targets, checks⟩ | _ <;> simp only [hjob] at hs
  case reconnect =>
    split at hs
    · cases hs
    · obtain rfl := Option.some.inj hs
      exact hidle.frame rfl rfl rfl rfl rfl (List.Sublist.refl _) hidle.scopes (.inl rfl)
  all_goals obtain rfl := Option.some.inj hs
  case start => exact hidle.newTransaction idle_still options after reply.txId
  case run => exact hidle.addBlobs hscope reply.blobs
  case executeBatch => exact hidle
  case retaining => exact hidle
  case finish => exact (h.finished hr hjob).clearTx tx
  case restartFinish => exact (h.reopening hr hjob).enqueue_apart rfl rfl rfl
  case restartStart =>
    refine hidle.restarted rfl ?_ upgrade reply.txId
    intro job hq htouched
    have hbefore := (h.behind hr hq tx htouched).1
    rw [hjob] at hbefore
    exact hbefore rfl
  case use =>
    split
    · exact hidle.frame rfl rfl rfl rfl rfl (List.Sublist.refl _) hidle.scopes (.inl rfl)
    · exact hidle
  case prepared => exact hidle.addBlobs hscope reply.blobs
  case closePrepared => exact hidle
  case stream => exact hidle.addBlobs hscope reply.blobs
  case blob =>
    split
    · apply hidle.holdBlobs
      intro b hb
      obtain ⟨k, hk, rfl⟩ := List.mem_mapIdx.mp hb
      have htraced : Traced { s with running := none } s.blobs[k].scope :=
        hidle.blob_traced (List.getElem_mem hk)
      split <;> exact htraced
    · exact hidle

theorem not_restarting_idle {i : Nat} (h : ¬s.Restarting i) :
    ¬Restarting { s with running := none } i := by
  rintro (⟨job, hjob, hreopens⟩ | hreopening)
  · exact h (.inl ⟨job, List.mem_append_right _ hjob, hreopens⟩)
  · exact h (.inr hreopening)

/-- A refused commit or rollback leaves the transaction open. -/
theorem Sound.reprieved (h : Sound s) {r : Section} (hr : s.running = some r) {i : Nat}
    {rollback : Bool} (hjob : r.job = .finish i rollback) :
    Sound ({ s with running := none }.modifyTx i fun t => { t with finished := false }) := by
  have htouched : r.job.touched = some i := by rw [hjob]; rfl
  have hends : r.job.finishes = some i := by rw [hjob]; rfl
  have hlooks : r.job.checks = false := by rw [hjob]; rfl
  refine h.idle.modifyTx ⟨fun _ => rfl, fun _ => rfl, fun _ => rfl⟩ ?_ ?_ ?_
  · intro t ht job hq hends'
    obtain ⟨htouched', hlooks'⟩ := touched_of_finishes hends'
    rw [(h.behind hr hq i htouched').2 hends] at hlooks'
    cases hlooks'
  · exact fun t ht hreopening => h.idle.resting i t ht hreopening
  · exact fun t ht hg _ _ => h.alive i t ht hg (.inr ⟨r.job, mem_jobs_running hr, htouched, hlooks⟩)

theorem Sound.refused (h : Sound s) {readOnly : Bool} (ho : Orderly s (.refused readOnly))
    (hs : s.refused readOnly = some s') : Sound s' := by
  unfold Attachment.refused at hs
  obtain ⟨r, hr, hs⟩ := Option.bind_eq_some_iff.mp hs
  have hidle := h.idle
  split at hs
  · rename_i tx hjob
    dsimp only at hs
    split at hs
    · rename_i t ht
      obtain rfl := Option.some.inj hs
      split
      · rename_i hupgrade
        apply hidle.restart ht
        exact not_restarting_idle (ho r tx t hr hjob ht hupgrade)
      · exact hidle
    · obtain rfl := Option.some.inj hs
      exact hidle
  · rename_i tx rollback hjob
    obtain rfl := Option.some.inj hs
    exact h.reprieved hr hjob
  · dsimp only at hs
    split at hs
    · cases hs
    · obtain rfl := Option.some.inj hs
      exact hidle
  · obtain rfl := Option.some.inj hs
    exact hidle

/-! Calls -/

theorem Sound.resume (h : Sound s) {k : Nat} (ho : Orderly s (.resume k))
    (hs : s.resume k = some s') : Sound s' := by
  obtain ⟨c, hc, rfl⟩ := Option.map_eq_some_iff.mp hs
  have hleft : Sound { s with continuations := s.continuations.eraseIdx k } :=
    h.frame rfl rfl rfl rfl rfl (List.Sublist.refl _) h.scopes (.inl rfl)
  have hopen (i : Nat) (hi : c.tx = some i) :
      Open { s with continuations := s.continuations.eraseIdx k } i := ho c i hc hi
  cases c with
  | replay tx => exact hleft.enqueue_use rfl (hopen tx rfl) rfl fun scope hscope => by cases hscope
  | use tx prepares =>
    exact hleft.enqueue_use rfl (hopen tx rfl) rfl fun scope hscope => by cases hscope
  | exec stmt tx => exact hleft.enqueue_use rfl (hopen tx rfl) rfl fun scope hscope => by cases hscope
  | construct conn generation =>
    exact hleft.frame rfl rfl rfl rfl rfl (List.Sublist.refl _) hleft.scopes (.inl rfl)

theorem finished_of_active {t : Tx} (h : s.assertActive t = true) : t.finished = false := by
  have hfinished := (Bool.and_eq_true_iff.mp h).2
  rwa [Bool.not_eq_true'] at hfinished

/-- Every orderly event keeps the handles of what is still asked for alive. -/
theorem Sound.step (h : Sound s) {e : Event} (ho : Orderly s e) (hs : s.step e = some s') :
    Sound s' := by
  -- a call on an open transaction, whose section captures no scope
  have hcall {job : Job} {tx : Nat} {t : Tx} (ht : s.txs[tx]? = some t) (hactive : s.assertActive t = true)
      (hstill : ¬s.Restarting tx) (htouched : job.touched = some tx) (hfinishes : job.finishes = none)
      (hcaptured : job.captured = none) : Sound (s.enqueue job) := by
    refine h.enqueue_use htouched ⟨⟨t, ht, finished_of_active hactive⟩, hstill⟩ hfinishes ?_
    intro scope hscope
    rw [hcaptured] at hscope
    cases hscope
  cases e with
  | startTransaction options after =>
    cases after <;> cases hs <;> exact h.enqueue_apart rfl rfl rfl
  | run tx =>
    obtain ⟨t, ht, rfl⟩ := Option.map_eq_some_iff.mp hs
    split
    · exact hcall ht ‹_› ho rfl rfl rfl
    · exact h
  | executeBatch tx =>
    obtain ⟨t, ht, rfl⟩ := Option.map_eq_some_iff.mp hs
    split
    · exact hcall ht ‹_› ho rfl rfl rfl
    · exact h
  | queryStream tx =>
    obtain ⟨t, ht, rfl⟩ := Option.map_eq_some_iff.mp hs
    split
    · refine h.frame rfl rfl rfl rfl rfl (List.Sublist.refl _) ?_ (.inl rfl)
      rintro scope (hheld | hheld)
      · rcases List.mem_append.mp hheld with hheld | hheld
        · exact h.scopes scope (.inl hheld)
        · rw [List.mem_singleton.mp hheld]
          exact traced_now ht _ rfl fun j g hkind => (TxAlive.runContext.inj hkind).2.symm
      · exact h.scopes scope (.inr hheld)
    · exact h
  | finish tx rollback =>
    obtain ⟨t, ht, rfl⟩ := Option.map_eq_some_iff.mp hs
    split
    · rename_i hactive
      exact h.finish ⟨⟨t, ht, finished_of_active hactive⟩, ho⟩ rollback
    · exact h
  | dispose tx =>
    obtain ⟨t, ht, rfl⟩ := Option.map_eq_some_iff.mp hs
    split
    · rename_i hactive
      exact h.finish ⟨⟨t, ht, finished_of_active (Bool.and_eq_true_iff.mp hactive).2⟩, ho⟩ true
    · exact h
  | retaining tx rollback =>
    obtain ⟨t, ht, rfl⟩ := Option.map_eq_some_iff.mp hs
    split
    · exact hcall ht ‹_› ho rfl rfl rfl
    · exact h
  | restart tx rollback strategy =>
    obtain ⟨t, ht, rfl⟩ := Option.map_eq_some_iff.mp hs
    exact h.restart ht ho rollback strategy false
  | preparedRun stmt tx =>
    unfold Attachment.step at hs
    dsimp only at hs
    split at hs
    · obtain ⟨p, -, rfl⟩ := Option.map_eq_some_iff.mp hs
      split
      · refine h.enqueue_use rfl ho rfl ?_
        intro scope hscope
        cases hscope
      · exact h
    · cases hs
  | preparedRunOwn stmt options =>
    obtain ⟨p, -, rfl⟩ := Option.map_eq_some_iff.mp hs
    split
    · exact h.enqueue_apart rfl rfl rfl
    · exact h
  | closePrepared stmt =>
    obtain ⟨p, -, rfl⟩ := Option.map_eq_some_iff.mp hs
    have hclosed : Sound { s with stmts := s.stmts.modify stmt fun p => { p with closed := true } } :=
      h.frame rfl rfl rfl rfl rfl (List.Sublist.refl _) h.scopes (.inl rfl)
    split
    · exact h
    · dsimp only
      split
      · exact hclosed.enqueue_apart rfl rfl rfl
      · exact hclosed
  | streamNext k =>
    obtain ⟨scope, hscope, rfl⟩ := Option.map_eq_some_iff.mp hs
    obtain ⟨hopen, huncycled⟩ := ho scope hscope
    refine h.enqueue_use rfl hopen rfl ?_
    intro scope' hscope'
    obtain rfl := Option.some.inj hscope'
    exact ⟨h.scopes scope (.inl (List.mem_of_getElem? hscope)), huncycled⟩
  | readBlob k =>
    obtain ⟨b, hb, rfl⟩ := Option.map_eq_some_iff.mp hs
    exact h.readBlob (List.mem_of_getElem? hb) (ho b hb)
  | pullBlob k =>
    obtain ⟨b, hb, rfl⟩ := Option.map_eq_some_iff.mp hs
    exact h.pullBlob (List.mem_of_getElem? hb) (ho b hb) k
  | prefetchSlice k =>
    obtain ⟨b, hb, rfl⟩ := Option.map_eq_some_iff.mp hs
    exact h.askBlob (h.blob_traced (List.mem_of_getElem? hb)) (ho b hb) [k]
  | prefetch ks =>
    unfold Attachment.step at hs
    dsimp only at hs
    split at hs
    · obtain rfl := Option.some.inj hs
      apply h.prefetch
      intro x hx
      obtain ⟨k, hmem, hk⟩ := List.mem_filterMap.mp hx
      obtain ⟨b, hb, rfl⟩ := Option.map_eq_some_iff.mp hk
      exact ⟨List.mem_of_getElem? hb, ho k hmem b hb⟩
    · cases hs
  | reconnect =>
    obtain rfl := Option.some.inj hs
    exact h.enqueue_apart rfl rfl rfl
  | begin => exact h.begin ho hs
  | disconnected => exact h.disconnected hs
  | ok reply => exact h.ok hs
  | refused readOnly => exact h.refused ho hs
  | resume k => exact h.resume ho hs

theorem sound_init : Sound {} := by
  constructor
  · constructor <;> simp
  all_goals simp [Holds, jobs]

instance (s : Attachment) (i : Nat) : Decidable (s.Restarting i) :=
  decidable_of_iff ((∃ job ∈ s.jobs, job.reopens = some i) ∨ s.txs[i]?.any (·.reopening) = true) (by
    unfold Restarting
    rw [Option.any_eq_true])

-- A call made while a restart is under way names the transaction that the restart has ended.
example :
    (machine.run {} [.startTransaction ⟨false, false⟩ .nothing, .begin, .ok { txId := 7 },
      .restart 0 false none, .run 0, .begin, .ok {}, .begin]).map (·.trace.drop 2) =
    some [.ended 0, .wrote ⟨0, some 0, some ⟨0, 0, 7⟩, some 0⟩] := by decide +kernel

end FastFirebird.Attachment
