import FastFirebird.ProofOnce

/-! What a client lets through in the clear: the attach packet, with the name of the database and the
user, waits for the encryption that the options ask for. -/
namespace FastFirebird.Handshake

/-- What a client sees go over the wire, in order. -/
inductive Exchange where
  | got (m : Message)
  | sent (p : Sent)
  deriving Repr, DecidableEq

def Sent.isMark : Sent → Bool
  | .crypt _ | .attach _ => true
  | _ => false

def Sent.carriesToken : Sent → Bool
  | .connect _ _ .token | .contAuth .token _ _ => true
  | _ => false

/-- Whether it is the packet that starts the encryption, or the attach packet. -/
def Exchange.isMark : Exchange → Bool
  | .sent p => p.isMark
  | .got _ => false

def Exchange.carriesToken : Exchange → Bool
  | .sent p => p.carriesToken
  | .got _ => false

def Plain (t : List Exchange) : Prop := ∀ e ∈ t, e.isMark = false

/-- The password has not gone out, not even as a hash. -/
def Tokenless (t : List Exchange) : Prop := ∀ e ∈ t, e.carriesToken = false

theorem Plain.append {t t' : List Exchange} (h : Plain t) (h' : Plain t') : Plain (t ++ t') := by
  intro e he
  rcases List.mem_append.mp he with he | he
  · exact h e he
  · exact h' e he

theorem Tokenless.append {t t' : List Exchange} (h : Tokenless t) (h' : Tokenless t') :
    Tokenless (t ++ t') := by
  intro e he
  rcases List.mem_append.mp he with he | he
  · exact h e he
  · exact h' e he

theorem plain_nil : Plain [] := fun _ he => absurd he List.not_mem_nil

theorem plain_one {e : Exchange} (h : e.isMark = false) : Plain [e] := by
  intro e' he
  rw [List.mem_singleton.mp he]
  exact h

theorem tokenless_one {e : Exchange} (h : e.carriesToken = false) : Tokenless [e] := by
  intro e' he
  rw [List.mem_singleton.mp he]
  exact h

theorem Plain.said {t : List Exchange} {p : Sent} (h : Plain t) (hp : p.isMark = false) :
    Plain (t ++ [.sent p]) := h.append (plain_one hp)

theorem Tokenless.said {t : List Exchange} {p : Sent} (h : Tokenless t)
    (hp : p.carriesToken = false) : Tokenless (t ++ [.sent p]) := h.append (tokenless_one hp)

theorem Plain.not_mark {pre post : List Exchange} {e : Exchange} (h : Plain (pre ++ e :: post))
    (he : e.isMark = true) : False := by
  have hnot := h e (List.mem_append_right _ List.mem_cons_self)
  rw [he] at hnot
  cases hnot

/-- Nothing stands out before the first mark. -/
theorem mark_first {pre post pre' post' : List Exchange} {e e' : Exchange}
    (h : pre ++ e :: post = pre' ++ e' :: post') (hpre : Plain pre) (he' : e'.isMark = true) :
    (pre' = pre ∧ e' = e) ∨ ∃ mid, post = mid ++ e' :: post' := by
  rcases List.append_eq_append_iff.mp h with ⟨l, hl, hl'⟩ | ⟨l, hl, hl'⟩
  · cases l with
    | nil =>
      rw [List.append_nil] at hl
      exact .inl ⟨hl, (List.cons.inj hl').1.symm⟩
    | cons x l => exact .inr ⟨l, (List.cons.inj hl').2⟩
  · cases l with
    | nil =>
      rw [List.append_nil] at hl
      exact .inl ⟨hl.symm, (List.cons.inj hl').1⟩
    | cons x l =>
      obtain rfl := (List.cons.inj hl').1
      rw [hl] at hpre
      exact (hpre.not_mark he').elim

/-- Nothing stands out behind the last mark. -/
theorem mark_last {pre post pre' post' : List Exchange} {e e' : Exchange}
    (h : pre ++ e :: post = pre' ++ e' :: post') (hpost : Plain post) (he' : e'.isMark = true) :
    (pre' = pre ∧ e' = e ∧ post' = post) ∨ ∃ mid, pre = pre' ++ e' :: mid := by
  rcases List.append_eq_append_iff.mp h with ⟨l, hl, hl'⟩ | ⟨l, hl, hl'⟩
  · cases l with
    | nil =>
      rw [List.append_nil] at hl
      obtain ⟨he, hp⟩ := List.cons.inj hl'
      exact .inl ⟨hl, he.symm, hp.symm⟩
    | cons x l =>
      rw [(List.cons.inj hl').2] at hpost
      exact (hpost.not_mark he').elim
  · cases l with
    | nil =>
      rw [List.append_nil] at hl
      obtain ⟨he, hp⟩ := List.cons.inj hl'
      exact .inl ⟨hl.symm, he, hp⟩
    | cons x l =>
      obtain rfl := (List.cons.inj hl').1
      exact .inr ⟨l, hl⟩

namespace Client

variable (opts : Options)

/-- What the client has sent between the two states. -/
def news (c c' : Client) : List Sent :=
  c'.sent.drop c.sent.length ++ c'.continued.drop c.continued.length

/-- What goes over the wire while these messages come. -/
def record : Client → List Message → List Exchange
  | _, [] => []
  | c, m :: ms =>
    match c.step opts m with
    | none => []
    | some c' => .got m :: (c.news c').map .sent ++ record c' ms

def exchange (ms : List Message) : List Exchange :=
  (start opts).sent.map .sent ++ record opts (start opts) ms

/-- The client may ask for encryption with `plugin`: it has a session key, the server offers the
plugin, and the password has not gone out. -/
structure Keyed (keys : String) (key : Option Bytes) (t : List Exchange) (plugin : String) : Prop where
  plain : Plain t
  tokenless : Tokenless t
  level : opts.wireCrypt ≠ .disabled
  offered : opts.selectCryptPlugin keys = some plugin
  keyed : key ≠ none

/-- There is nothing to encrypt with, and the options do not insist. -/
structure InClear (keys : String) (key : Option Bytes) (t : List Exchange) : Prop where
  plain : Plain t
  level : opts.wireCrypt ≠ .required
  unkeyed : opts.wireCrypt = .enabled → key = none ∨ opts.selectCryptPlugin keys = none

/-- What allows the attach packet: the server has agreed to the encryption, or there is none. -/
def Opened (c : Client) (t : List Exchange) : Prop :=
  (∃ pre plugin data, t = pre ++ [.sent (.crypt plugin), .got (.response data none)] ∧
    Keyed opts c.keys c.sessionKey pre plugin) ∨ InClear opts c.keys c.sessionKey t

/-- The attach packet has gone out, and nothing of its kind behind it. -/
def Attached (c : Client) (t : List Exchange) : Prop :=
  ∃ pre dpb post, t = pre ++ .sent (.attach dpb) :: post ∧ Plain post ∧ Opened opts c pre

/-- The client has asked for encryption, and `post` is what came of it. -/
def Asked (c : Client) (t : List Exchange) (plugin : String) (post : List Exchange) : Prop :=
  ∃ pre, t = pre ++ .sent (.crypt plugin) :: post ∧ Keyed opts c.keys c.sessionKey pre plugin ∧
    Plain post

/-- What has been sent, by what the client waits for. -/
def Guarded (c : Client) (t : List Exchange) : Prop :=
  match c.phase with
  | .connecting => Plain t ∧ c.sessionKey = none ∧ (isLegacy opts = false → Tokenless t)
  | .restarting _ => Plain t ∧ c.sessionKey = none ∧ Tokenless t
  | .draining => Plain t ∧ c.sessionKey = none
  | .proving _ =>
    Plain t ∧ (c.sessionKey ≠ none → Tokenless t) ∧ (c.fallbackToken = false → Tokenless t)
  | .crypting plugin => Asked opts c t plugin []
  | .attaching _ | .attached => Attached opts c t
  | .failed _ => Plain t ∨ (∃ plugin post, Asked opts c t plugin post) ∨ Attached opts c t

variable {opts} {c c' : Client} {t : List Exchange}

/-- What was said of the one client can be said of the other. -/
theorem Attached.congr (h : Attached opts c t) (hkeys : c'.keys = c.keys)
    (hkey : c'.sessionKey = c.sessionKey) : Attached opts c' t := by
  simp only [Attached, Opened] at h ⊢
  rw [hkeys, hkey]
  exact h

theorem Attached.append (h : Attached opts c t) {t' : List Exchange} (ht' : Plain t') :
    Attached opts c (t ++ t') := by
  obtain ⟨pre, dpb, post, rfl, hpost, hopened⟩ := h
  refine ⟨pre, dpb, post ++ t', ?_, hpost.append ht', hopened⟩
  rw [List.append_assoc]
  rfl

theorem Asked.append {plugin : String} {post : List Exchange} (h : Asked opts c t plugin post)
    {t' : List Exchange} (ht' : Plain t') : Asked opts c (t ++ t') plugin (post ++ t') := by
  obtain ⟨pre, rfl, hkeyed, hpost⟩ := h
  refine ⟨pre, ?_, hkeyed, hpost.append ht'⟩
  rw [List.append_assoc]
  rfl

/-- From `c`, after `t`, to `c'`, with all that it sends on the way. -/
def Leads (opts : Options) (c : Client) (t : List Exchange) (c' : Client) : Prop :=
  ∃ l l', c'.sent = c.sent ++ l ∧ c'.continued = c.continued ++ l' ∧
    Guarded opts c' (t ++ (l ++ l').map .sent)

theorem Leads.news (h : Leads opts c t c') : Guarded opts c' (t ++ (c.news c').map .sent) := by
  obtain ⟨l, l', hsent, hcontinued, hguarded⟩ := h
  rw [Client.news, hsent, hcontinued, List.drop_left, List.drop_left]
  exact hguarded

/-- Only what was sent before counts. -/
theorem Leads.of_same {c₁ : Client} (hsent : c₁.sent = c.sent) (hcontinued : c₁.continued = c.continued)
    (h : Leads opts c₁ t c') : Leads opts c t c' := by
  rw [Leads] at h ⊢
  rw [← hsent, ← hcontinued]
  exact h

theorem leads_silent (hsent : c'.sent = c.sent) (hcontinued : c'.continued = c.continued)
    (h : Guarded opts c' t) : Leads opts c t c' := by
  refine ⟨[], [], ?_, ?_, ?_⟩
  · rw [hsent, List.append_nil]
  · rw [hcontinued, List.append_nil]
  · rw [List.append_nil, List.map_nil, List.append_nil]
    exact h

theorem leads_sent {p : Sent} (hsent : c'.sent = c.sent ++ [p])
    (hcontinued : c'.continued = c.continued) (h : Guarded opts c' (t ++ [.sent p])) :
    Leads opts c t c' := by
  refine ⟨[p], [], hsent, ?_, h⟩
  rw [hcontinued, List.append_nil]

theorem leads_continued {p : Sent} (hsent : c'.sent = c.sent)
    (hcontinued : c'.continued = c.continued ++ [p]) (h : Guarded opts c' (t ++ [.sent p])) :
    Leads opts c t c' := by
  refine ⟨[], [p], ?_, hcontinued, h⟩
  rw [hsent, List.append_nil]

theorem leads_fail {err : String} (h : Plain t) : Leads opts c t (c.fail err) :=
  leads_silent rfl rfl (.inl h)

theorem leads_attach (h : Opened opts c t) : Leads opts c t c.attach :=
  leads_sent rfl rfl ⟨t, c.dpbAuthData, [], rfl, plain_nil, h⟩

theorem leads_unencrypted (h : Plain t)
    (hunkeyed : opts.wireCrypt = .enabled → c.sessionKey = none ∨ opts.selectCryptPlugin c.keys = none) :
    Leads opts c t (c.unencrypted opts) := by
  rw [unencrypted]
  split
  · exact leads_fail h
  · rename_i hlevel
    exact leads_attach (.inr ⟨h, hlevel, hunkeyed⟩)

/-- Whatever the handshake has come to, this is how it ends. -/
theorem leads_finish (h : Plain t) (htoken : c.sessionKey ≠ none → Tokenless t) :
    Leads opts c t (c.finish opts) := by
  unfold finish
  split
  · rename_i hlevel
    refine leads_unencrypted h fun henabled => ?_
    rw [hlevel] at henabled
    cases henabled
  · rename_i hkey _
    exact leads_unencrypted h fun _ => .inl hkey
  · rename_i hplugin _
    exact leads_unencrypted h fun _ => .inr hplugin
  · rename_i key plugin hkey hoffered hlevel
    have hsome : c.sessionKey ≠ none := by
      rw [hkey]
      exact Option.some_ne_none key
    have hkeyed : Keyed opts c.keys c.sessionKey t plugin :=
      ⟨h, htoken hsome, hlevel, hoffered, hsome⟩
    dsimp only
    split
    · exact leads_sent rfl rfl ⟨t, rfl, hkeyed, plain_nil⟩
    · exact leads_sent rfl rfl (.inr (.inl ⟨plugin, [], t, rfl, hkeyed, plain_nil⟩))

theorem leads_finishPending (h : Plain t) (htoken : c.sessionKey ≠ none → Tokenless t) :
    Leads opts c t (c.finishPending opts) :=
  leads_finish (c := { c with pendingAuth := some ⟨c.activePlugin, c.fallbackToken⟩ }) h htoken

/-- The password goes out as a hash; there is no session key from then on. -/
theorem leads_token (h : Plain t) (hkey : c.sessionKey = none) :
    Leads opts c t { c.sendContAuth .token legacyAuth legacyAuth with phase := .draining } :=
  leads_sent rfl rfl ⟨h.said rfl, hkey⟩

theorem leads_negotiate (h : Plain t) (hkey : c.sessionKey = none) (htoken : Tokenless t)
    (cond : Bool) (data : Bytes) : Leads opts c t (c.negotiate opts cond data) := by
  unfold negotiate
  split
  · dsimp only
    split
    · exact leads_token (c := { c with fallbackToken := true }) h hkey
    · exact leads_finishPending (c := { c with fallbackToken := true, dpbAuthData := some .token }) h
        fun hsome => absurd hkey hsome
  split
  · split
    · exact leads_fail h
    split
    · exact leads_fail h
    · dsimp only
      split
      · refine leads_sent rfl rfl ⟨h.said rfl, fun _ => htoken.said rfl, fun _ => htoken.said rfl⟩
      · rename_i proof _ _
        exact leads_finishPending (c := { c with
          sessionKey := some proof.sessionKey
          dpbAuthData := some (.proof c.activePlugin proof.proofHex) }) h fun _ => htoken
  · exact leads_finishPending h fun _ => htoken

theorem leads_restart (h : Plain t) (hkey : c.sessionKey = none) (htoken : Tokenless t)
    (rounds : Nat) (data : Bytes) : Leads opts c t (c.restart opts rounds data) := by
  unfold restart
  split
  · split
    · exact leads_fail h
    · exact leads_sent rfl rfl ⟨h.said rfl, hkey, htoken.said rfl⟩
  · exact leads_negotiate h hkey htoken true data

theorem leads_accepted (h : Plain t) (hkey : c.sessionKey = none)
    (htoken : isLegacy opts = false → Tokenless t) (cond : Bool) (data : Bytes)
    (pluginName : String) (isAuthenticated : Bool) (keys : String) :
    Leads opts c t (c.accepted opts cond data pluginName isAuthenticated keys) := by
  unfold accepted
  dsimp only
  split
  · split
    · exact leads_sent rfl rfl ⟨h.said rfl, hkey⟩
    · exact leads_finishPending (c := { c with
        activePlugin := legacyAuth
        keys := keys
        fallbackToken := true
        dpbAuthData := some .token }) h fun hsome => absurd hkey hsome
  · rename_i hnotLegacy
    split
    · rename_i hnotYet
      have hother : isLegacy opts = false := by
        cases hlegacy : isLegacy opts with
        | false => rfl
        | true => exact absurd ⟨hlegacy, hnotYet⟩ hnotLegacy
      split
      · exact leads_restart (c := { c with
          activePlugin := if pluginName = "" then plugin opts else pluginName, keys := keys })
          h hkey (htoken hother) 0 data
      · exact leads_negotiate (c := { c with
          activePlugin := if pluginName = "" then plugin opts else pluginName, keys := keys })
          h hkey (htoken hother) false data
    · exact leads_finish (c := { c with
        activePlugin := if pluginName = "" then plugin opts else pluginName, keys := keys }) h
        fun hsome => absurd hkey hsome

theorem guarded_proving {attempted : List String} (hphase : c.phase = .proving attempted)
    (h : Plain t) (hkey : c.sessionKey ≠ none → Tokenless t)
    (hfallback : c.fallbackToken = false → Tokenless t) : Guarded opts c t := by
  rw [Guarded, hphase]
  exact ⟨h, hkey, hfallback⟩

theorem guarded_attaching {legacySent : Bool} (hphase : c.phase = .attaching legacySent)
    (h : Attached opts c t) : Guarded opts c t := by
  rw [Guarded, hphase]
  exact h

/-- Each plugin gets one attempt; behind the fallback there is no other. -/
theorem leads_continueProof {attempted : List String} (hphase : c.phase = .proving attempted)
    (h : Plain t) (hkey : c.sessionKey ≠ none → Tokenless t)
    (hfallback : c.fallbackToken = false → Tokenless t) (data : Bytes) (pluginName keys : String) :
    Leads opts c t (c.continueProof opts attempted data pluginName keys) := by
  unfold continueProof
  generalize (if pluginName = "" then c.activePlugin else pluginName) = nextPlugin
  -- the keys that came along are nothing to the packets
  have hsame : (if keys = "" then c else { c with keys := keys }).sent = c.sent ∧
      (if keys = "" then c else { c with keys := keys }).continued = c.continued ∧
      (if keys = "" then c else { c with keys := keys }).phase = c.phase ∧
      (if keys = "" then c else { c with keys := keys }).sessionKey = c.sessionKey ∧
      (if keys = "" then c else { c with keys := keys }).fallbackToken = c.fallbackToken := by
    split <;> exact ⟨rfl, rfl, rfl, rfl, rfl⟩
  generalize (if keys = "" then c else { c with keys := keys }) = c₁ at hsame ⊢
  obtain ⟨hsent, hcontinued, hphase₁, hkey₁, hfallback₁⟩ := hsame
  rw [← hkey₁] at hkey
  rw [← hfallback₁] at hfallback
  refine Leads.of_same hsent hcontinued ?_
  dsimp only
  split
  · exact leads_fail h
  rename_i hnone
  rw [Bool.not_eq_true] at hnone
  split
  · exact leads_silent rfl rfl (guarded_proving (hphase₁.trans hphase) h hkey hfallback)
  split
  · exact leads_fail h
  split
  · refine leads_sent rfl rfl ⟨h.said rfl, fun hsome => absurd rfl hsome, fun htrue => ?_⟩
    cases htrue
  split
  · exact leads_silent rfl rfl (.inl h)
  split
  · exact leads_sent rfl rfl
      ⟨h.said rfl, fun hsome => (hkey hsome).said rfl, fun hfalse => (hfallback hfalse).said rfl⟩
  split
  · exact leads_silent rfl rfl (.inl h)
  · exact leads_sent rfl rfl
      ⟨h.said rfl, fun _ => (hfallback hnone).said rfl, fun _ => (hfallback hnone).said rfl⟩

theorem leads_continueAttach {legacySent : Bool} (hphase : c.phase = .attaching legacySent)
    (h : Attached opts c t) (pending : PendingAuth) (data : Bytes) (pluginName : String) :
    Leads opts c t (c.continueAttach opts legacySent pending data pluginName) := by
  unfold continueAttach
  generalize (if pluginName = "" then pending.plugin else pluginName) = usePlugin
  dsimp only
  split
  · split
    · exact leads_silent rfl rfl (.inr (.inr h))
    · exact leads_continued rfl rfl (h.append (plain_one rfl))
  split
  · exact leads_continued rfl rfl (guarded_attaching (c := c.sendContinued _ _ _) hphase
      (h.append (plain_one rfl)))
  split
  · exact leads_silent rfl rfl (.inr (.inr h))
  · exact leads_continued rfl rfl (guarded_attaching (c := c.sendContinued _ _ _) hphase
      (h.append (plain_one rfl)))

/-- Giving up is always allowed. -/
theorem Guarded.failed (h : Guarded opts c t) {t' : List Exchange} (ht' : Plain t') (err : String) :
    Leads opts c (t ++ t') (c.fail err) := by
  have hguarded : Plain (t ++ t') ∨ (∃ plugin post, Asked opts c (t ++ t') plugin post) ∨
      Attached opts c (t ++ t') := by
    rw [Guarded] at h
    split at h
    · exact .inl (h.1.append ht')
    · exact .inl (h.1.append ht')
    · exact .inl (h.1.append ht')
    · exact .inl (h.1.append ht')
    · rename_i plugin _
      exact .inr (.inl ⟨plugin, t', h.append ht'⟩)
    · exact .inr (.inr (h.append ht'))
    · exact .inr (.inr (h.append ht'))
    · rcases h with h | ⟨plugin, post, h⟩ | h
      · exact .inl (h.append ht')
      · exact .inr (.inl ⟨plugin, post ++ t', h.append ht'⟩)
      · exact .inr (.inr (h.append ht'))
  exact leads_silent rfl rfl hguarded

/-- Only the server's consent lets the client go on. -/
theorem crypting_cases {plugin : String} (hphase : c.phase = .crypting plugin) {m : Message}
    (hs : c.step opts m = some c') :
    (∃ data, m = .response data none ∧ c' = c.attach) ∨ ∃ err, c' = c.fail err := by
  unfold Client.step at hs
  rw [hphase] at hs
  obtain rfl := Option.some.inj hs
  split
  · exact .inl ⟨_, rfl, rfl⟩
  · exact .inr ⟨_, rfl⟩

theorem leads_step (h : Guarded opts c t) {m : Message} (hs : c.step opts m = some c') :
    Leads opts c (t ++ [.got m]) c' := by
  have hplain : Plain [.got m] := plain_one rfl
  have htoken (ht : Tokenless t) : Tokenless (t ++ [.got m]) := ht.append (tokenless_one rfl)
  have hwhole := h
  rw [Guarded] at h
  cases step_cases hs with
  | failed err => exact hwhole.failed hplain err
  | accepted cond data pluginName isAuthenticated keys hphase =>
    rw [hphase] at h
    exact leads_accepted (h.1.append hplain) h.2.1 (fun hother => htoken (h.2.2 hother)) _ _ _ _ _
  | restarted rounds data pluginName keys hphase =>
    rw [hphase] at h
    exact leads_restart (c := { c with activePlugin := pluginName, keys := keys })
      (h.1.append hplain) h.2.1 (htoken h.2.2) rounds data
  | drained hphase =>
    rw [hphase] at h
    exact leads_finishPending (h.1.append hplain) fun hsome => absurd h.2 hsome
  | proved attempted keyData hphase =>
    rw [hphase] at h
    exact leads_finishPending (c := { c with serverKeyData := keyData }) (h.1.append hplain)
      fun hsome => htoken (h.2.1 hsome)
  | switched attempted data pluginName keys hphase =>
    rw [hphase] at h
    exact leads_continueProof hphase (h.1.append hplain) (fun hsome => htoken (h.2.1 hsome))
      (fun hfalse => htoken (h.2.2 hfalse)) data pluginName keys
  | encrypted plugin hphase =>
    rw [hphase] at h
    rcases crypting_cases hphase hs with ⟨data, rfl, -⟩ | ⟨err, hfailed⟩
    · obtain ⟨pre, rfl, hkeyed, -⟩ := h
      refine leads_attach (.inl ⟨pre, plugin, data, ?_, hkeyed⟩)
      rw [List.append_assoc]
      rfl
    · rw [hfailed]
      exact hwhole.failed hplain err
  | attached legacySent hphase =>
    rw [hphase] at h
    exact leads_silent rfl rfl (h.append hplain)
  | asked legacySent pending data pluginName keys hphase _ _ =>
    rw [hphase] at h
    exact leads_continueAttach hphase (h.append hplain) pending data pluginName

theorem guarded_start : Guarded opts (start opts) ((start opts).sent.map .sent) := by
  refine ⟨?_, rfl, fun hlegacy => ?_⟩
  · exact plain_one rfl
  · refine tokenless_one ?_
    rw [hlegacy]
    rfl

theorem guarded_record {ms : List Message} (h : Guarded opts c t)
    (hrun : (machine opts).run c ms = some c') : Guarded opts c' (t ++ record opts c ms) := by
  induction ms generalizing c t with
  | nil =>
    obtain rfl := Option.some.inj hrun
    rw [record, List.append_nil]
    exact h
  | cons m ms ih =>
    obtain ⟨c₁, hs, hrun⟩ := Option.bind_eq_some_iff.mp hrun
    have hs : c.step opts m = some c₁ := hs
    have hnext := ih (leads_step h hs).news hrun
    rw [record, hs]
    dsimp only
    rw [List.append_assoc, List.append_assoc] at hnext
    exact hnext

theorem Opened.mark {pre pre' mid : List Exchange} {e : Exchange} (h : Opened opts c pre)
    (hpre : pre = pre' ++ e :: mid) (he : e.isMark = true) :
    ∃ plugin, e = .sent (.crypt plugin) ∧ Keyed opts c.keys c.sessionKey pre' plugin := by
  rcases h with ⟨pre₀, plugin, data, hopened, hkeyed⟩ | hclear
  · rcases mark_first (hopened.symm.trans hpre) hkeyed.plain he with ⟨rfl, rfl⟩ | ⟨mid', hmid⟩
    · exact ⟨plugin, rfl, hkeyed⟩
    · have hgot : Plain [.got (.response data none)] := plain_one rfl
      rw [hmid] at hgot
      exact (hgot.not_mark he).elim
  · have hplain := hclear.plain
    rw [hpre] at hplain
    exact (hplain.not_mark he).elim

theorem Guarded.cases (h : Guarded opts c t) :
    Plain t ∨ (∃ plugin post, Asked opts c t plugin post) ∨ Attached opts c t := by
  rw [Guarded] at h
  split at h
  · exact .inl h.1
  · exact .inl h.1
  · exact .inl h.1
  · exact .inl h.1
  · exact .inr (.inl ⟨_, _, h⟩)
  · exact .inr (.inr h)
  · exact .inr (.inr h)
  · exact h

/-- In every run of the handshake, whatever the server sends: the attach packet goes out at most
once, behind the server's consent to the encryption or, where the options do not insist on it, when
there is nothing to encrypt with; the packet that asks for the encryption goes out at most once, with
a session key, for a plugin that the server offers, and never behind the legacy hash. -/
theorem attach_opened {ms : List Message} (hrun : (machine opts).run (start opts) ms = some c) :
    (∀ pre dpb post, exchange opts ms = pre ++ .sent (.attach dpb) :: post →
      Opened opts c pre ∧ Plain post) ∧
    ∀ pre plugin post, exchange opts ms = pre ++ .sent (.crypt plugin) :: post →
      Keyed opts c.keys c.sessionKey pre plugin := by
  have hguarded : Guarded opts c (exchange opts ms) := guarded_record guarded_start hrun
  constructor
  · intro pre dpb post hpre
    rcases hguarded.cases with hplain | ⟨plugin, post', P, hasked, hkeyed, hpost'⟩ |
      ⟨P, dpb', Q, hattached, hQ, hopened⟩
    · exact (Plain.not_mark (hpre ▸ hplain) rfl).elim
    · rcases mark_first (hasked.symm.trans hpre) hkeyed.plain rfl with ⟨-, hsame⟩ | ⟨mid, hmid⟩
      · cases hsame
      · exact (Plain.not_mark (hmid ▸ hpost') rfl).elim
    · rcases mark_last (hattached.symm.trans hpre) hQ rfl with ⟨rfl, -, rfl⟩ | ⟨mid, hmid⟩
      · exact ⟨hopened, hQ⟩
      · obtain ⟨plugin, hsame, -⟩ := hopened.mark hmid rfl
        cases hsame
  · intro pre plugin post hpre
    rcases hguarded.cases with hplain | ⟨plugin', post', P, hasked, hkeyed, hpost'⟩ |
      ⟨P, dpb', Q, hattached, hQ, hopened⟩
    · exact (Plain.not_mark (hpre ▸ hplain) rfl).elim
    · rcases mark_first (hasked.symm.trans hpre) hkeyed.plain rfl with ⟨rfl, hsame⟩ | ⟨mid, hmid⟩
      · obtain rfl : plugin = plugin' := by
          injection hsame with hsame
          injection hsame
        exact hkeyed
      · exact (Plain.not_mark (hmid ▸ hpost') rfl).elim
    · rcases mark_last (hattached.symm.trans hpre) hQ rfl with ⟨-, hsame, -⟩ | ⟨mid, hmid⟩
      · cases hsame
      · obtain ⟨plugin', hsame, hkeyed⟩ := hopened.mark hmid rfl
        obtain rfl : plugin = plugin' := by
          injection hsame with hsame
          injection hsame
        exact hkeyed

/-- SRP with one proof, then Arc4. -/
def insisting : Options where
  authPlugin := none
  wireCrypt := .required
  selectCryptPlugin _ := some "Arc4"
  findPluginIv _ _ := none
  computeProof _ _ _ := .ok ⟨"ab", [1, 2]⟩

def consenting : List Message :=
  [.acceptData true 16 [1, 0, 9, 1, 0, 65] "Srp256" false "Symmetric Arc4", .response [] none,
    .response [] none, .response [] none]

theorem attach_opened_insisting : ∃ c,
    (machine insisting).run (start insisting) consenting = some c ∧
      (∀ pre dpb post, exchange insisting consenting = pre ++ .sent (.attach dpb) :: post →
        Opened insisting c pre ∧ Plain post) ∧
      ∀ pre plugin post, exchange insisting consenting = pre ++ .sent (.crypt plugin) :: post →
        Keyed insisting c.keys c.sessionKey pre plugin := by
  have hsome : ((machine insisting).run (start insisting) consenting).isSome = true := by
    decide +kernel
  obtain ⟨c, hrun⟩ := Option.isSome_iff_exists.mp hsome
  exact ⟨c, hrun, attach_opened hrun⟩

example : exchange insisting consenting =
    [.sent (.connect "Srp256" authPluginList .publicKey), .got (consenting.getD 0 .reject),
      .sent (.contAuth (.proof "Srp256" "ab") "Srp256" "Srp256"), .got (.response [] none),
      .sent (.crypt "Arc4"), .got (.response [] none), .sent (.attach none),
      .got (.response [] none)] := by decide +kernel

end Client

end FastFirebird.Handshake
