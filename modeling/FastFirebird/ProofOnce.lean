import FastFirebird.Handshake

/-! What a client gives away of its password: a proof for each plugin, and a legacy token. -/
namespace FastFirebird.Handshake

/-- What a packet answers a server with; the connect packet answers nothing. -/
def Sent.answer : Sent → Option AuthData
  | .connect _ _ _ => none
  | .contAuth authData _ _ => some authData
  | .crypt _ => none
  | .attach dpbAuthData => dpbAuthData

def AuthData.provesFor (plugin : String) : AuthData → Bool
  | .proof plugin' _ => plugin' == plugin
  | _ => false

def answers (sent : List Sent) : List AuthData := sent.filterMap Sent.answer

def proofs (plugin : String) (l : List AuthData) : Nat := l.countP (AuthData.provesFor plugin)

def tokens (l : List AuthData) : Nat := l.count .token

theorem answers_append (l l' : List Sent) : answers (l ++ l') = answers l ++ answers l' :=
  List.filterMap_append

theorem proofs_append (plugin : String) (l l' : List AuthData) :
    proofs plugin (l ++ l') = proofs plugin l + proofs plugin l' := List.countP_append

theorem tokens_append (l l' : List AuthData) : tokens (l ++ l') = tokens l + tokens l' :=
  List.count_append

theorem answers_attach (dpb : Option AuthData) : answers [.attach dpb] = dpb.toList := by
  cases dpb <;> rfl

theorem proofs_proof (plugin plugin' hex : String) :
    proofs plugin [.proof plugin' hex] = if plugin' = plugin then 1 else 0 := by
  unfold proofs
  rw [List.countP_singleton, AuthData.provesFor]
  by_cases h : plugin' = plugin
  · rw [if_pos h, if_pos (by rw [h]; exact beq_self_eq_true plugin)]
  · rw [if_neg h, if_neg (by simpa using h)]

/-- No plugin is proved twice, and there is one token at most. -/
def Once (l : List AuthData) : Prop := (∀ plugin, proofs plugin l ≤ 1) ∧ tokens l ≤ 1

/-- Nothing that depends on the password. -/
def Quiet (l : List AuthData) : Prop := (∀ plugin, proofs plugin l = 0) ∧ tokens l = 0

theorem Quiet.once {l : List AuthData} (h : Quiet l) : Once l := by
  refine ⟨fun plugin => ?_, ?_⟩
  · rw [h.1 plugin]
    exact Nat.zero_le 1
  · rw [h.2]
    exact Nat.zero_le 1

theorem Once.left {l l' : List AuthData} (h : Once (l ++ l')) : Once l := by
  refine ⟨fun plugin => ?_, ?_⟩
  · have hle := h.1 plugin
    rw [proofs_append] at hle
    omega
  · have hle := h.2
    rw [tokens_append] at hle
    omega

theorem Quiet.publicKey {l : List AuthData} (h : Quiet l) : Quiet (l ++ [.publicKey]) := by
  refine ⟨fun plugin => ?_, ?_⟩
  · rw [proofs_append, h.1 plugin]
    rfl
  · rw [tokens_append, h.2]
    rfl

theorem Quiet.token {l : List AuthData} (h : Quiet l) : Once (l ++ [.token]) := by
  refine ⟨fun plugin => ?_, ?_⟩
  · rw [proofs_append, h.1 plugin]
    exact Nat.zero_le 1
  · rw [tokens_append, h.2]
    exact Nat.le_refl 1

theorem Quiet.proof {l : List AuthData} (h : Quiet l) (plugin hex : String) :
    Once (l ++ [.proof plugin hex]) := by
  refine ⟨fun plugin' => ?_, ?_⟩
  · rw [proofs_append, h.1 plugin', proofs_proof]
    split <;> omega
  · rw [tokens_append, h.2]
    exact Nat.zero_le 1

namespace Client

variable {opts : Options} {c c' : Client}

/-- What a handshake answers, by what the client waits for. -/
def Sound (c : Client) : Prop :=
  match c.phase with
  | .connecting | .restarting _ =>
    Quiet (answers c.sent) ∧ c.dpbAuthData = none ∧ c.fallbackToken = false ∧ c.continued = []
  | .draining => Once (answers c.sent) ∧ c.dpbAuthData = none ∧ c.continued = []
  | .proving attempted =>
    Once (answers c.sent) ∧ (∀ plugin, 0 < proofs plugin (answers c.sent) → plugin ∈ attempted) ∧
      (c.fallbackToken = false → tokens (answers c.sent) = 0) ∧ c.dpbAuthData = none ∧
      c.continued = []
  | .crypting _ => Once (answers c.sent ++ c.dpbAuthData.toList) ∧ c.continued = []
  | .attaching legacySent =>
    Once (answers c.sent) ∧ tokens (answers c.continued) ≤ if legacySent then 1 else 0
  | .attached | .failed _ => Once (answers c.sent) ∧ tokens (answers c.continued) ≤ 1

theorem sound_fail (err : String) (h : Once (answers c.sent))
    (ht : tokens (answers c.continued) ≤ 1) : (c.fail err).Sound := ⟨h, ht⟩

theorem tokens_nil (h : c.continued = []) : tokens (answers c.continued) = 0 := by
  rw [h]
  rfl

theorem sound_attach (h : Once (answers c.sent ++ c.dpbAuthData.toList)) (hc : c.continued = []) :
    c.attach.Sound := by
  refine ⟨?_, ?_⟩
  · show Once (answers (c.sent ++ [.attach c.dpbAuthData]))
    rw [answers_append, answers_attach]
    exact h
  · show tokens (answers c.continued) ≤ 0
    exact Nat.le_of_eq (tokens_nil hc)

theorem sound_unencrypted (h : Once (answers c.sent ++ c.dpbAuthData.toList))
    (hc : c.continued = []) : (c.unencrypted opts).Sound := by
  unfold unencrypted
  split
  · apply sound_fail _ h.left
    rw [tokens_nil hc]
    exact Nat.zero_le 1
  · exact sound_attach h hc

theorem sound_finish (h : Once (answers c.sent ++ c.dpbAuthData.toList)) (hc : c.continued = []) :
    (c.finish opts).Sound := by
  unfold finish
  split
  · exact sound_unencrypted h hc
  · exact sound_unencrypted h hc
  · exact sound_unencrypted h hc
  · have hcrypt (plugin : String) : answers (c.sent ++ [.crypt plugin]) = answers c.sent := by
      rw [answers_append]
      exact List.append_nil _
    dsimp only
    split
    · refine ⟨?_, hc⟩
      show Once (answers (c.sent ++ [.crypt _]) ++ c.dpbAuthData.toList)
      rw [hcrypt]
      exact h
    · apply sound_fail
      · show Once (answers (c.sent ++ [.crypt _]))
        rw [hcrypt]
        exact h.left
      · show tokens (answers c.continued) ≤ 1
        rw [tokens_nil hc]
        exact Nat.zero_le 1

theorem sound_finishPending (h : Once (answers c.sent ++ c.dpbAuthData.toList))
    (hc : c.continued = []) : (c.finishPending opts).Sound := sound_finish h hc

/-- Before anything has been answered that depends on the password. -/
def Fresh (c : Client) : Prop :=
  Quiet (answers c.sent) ∧ c.dpbAuthData = none ∧ c.fallbackToken = false ∧ c.continued = []

theorem answers_sendContAuth (authData : AuthData) (plugin pluginList : String) :
    answers (c.sendContAuth authData plugin pluginList).sent = answers c.sent ++ [authData] :=
  answers_append _ _

theorem once_carried {l : List AuthData} {dpb : Option AuthData} (h : Once l) (hdpb : dpb = none) :
    Once (l ++ dpb.toList) := by
  rw [hdpb]
  show Once (l ++ [])
  rw [List.append_nil]
  exact h

theorem sound_drain (h : c.Fresh) :
    ({ c.sendContAuth .token legacyAuth legacyAuth with phase := .draining } : Client).Sound := by
  obtain ⟨hquiet, hdpb, -, hc⟩ := h
  refine ⟨?_, hdpb, hc⟩
  show Once (answers (c.sendContAuth .token legacyAuth legacyAuth).sent)
  rw [answers_sendContAuth]
  exact hquiet.token

theorem sound_negotiate (h : c.Fresh) (cond : Bool) (data : Bytes) :
    (c.negotiate opts cond data).Sound := by
  obtain ⟨hquiet, hdpb, hfallback, hc⟩ := h
  have hnone : tokens (answers c.continued) ≤ 1 := by
    rw [tokens_nil hc]
    exact Nat.zero_le 1
  unfold negotiate
  split
  · dsimp only
    split
    · refine ⟨?_, hdpb, hc⟩
      show Once (answers (c.sendContAuth .token legacyAuth legacyAuth).sent)
      rw [answers_sendContAuth]
      exact hquiet.token
    · exact sound_finishPending hquiet.token hc
  split
  · split
    · exact sound_fail _ hquiet.once hnone
    split
    · exact sound_fail _ hquiet.once hnone
    · rename_i proof _
      dsimp only
      split
      · have hsent : answers (c.sent ++ [.contAuth (.proof c.activePlugin proof.proofHex)
            c.activePlugin c.activePlugin]) =
            answers c.sent ++ [.proof c.activePlugin proof.proofHex] := answers_append _ _
        refine ⟨?_, ?_, ?_, hdpb, hc⟩
        · show Once (answers (c.sent ++ [.contAuth _ c.activePlugin c.activePlugin]))
          rw [hsent]
          exact hquiet.proof _ _
        · intro plugin hplugin
          have hplugin : 0 < proofs plugin (answers (c.sent ++ [.contAuth
            (.proof c.activePlugin proof.proofHex) c.activePlugin c.activePlugin])) := hplugin
          rw [hsent, proofs_append, hquiet.1 plugin, proofs_proof] at hplugin
          split at hplugin
          · rename_i hsame
            rw [hsame]
            exact List.mem_singleton_self plugin
          · exact absurd hplugin (Nat.lt_irrefl 0)
        · intro _
          show tokens (answers (c.sent ++ [.contAuth _ c.activePlugin c.activePlugin])) = 0
          rw [hsent, tokens_append, hquiet.2]
          rfl
      · exact sound_finishPending (hquiet.proof _ _) hc
  · exact sound_finishPending (once_carried hquiet.once hdpb) hc

theorem sound_restart (h : c.Fresh) (rounds : Nat) (data : Bytes) :
    (c.restart opts rounds data).Sound := by
  unfold restart
  split
  · obtain ⟨hquiet, hdpb, hfallback, hc⟩ := h
    split
    · apply sound_fail _ hquiet.once
      rw [tokens_nil hc]
      exact Nat.zero_le 1
    · refine ⟨?_, hdpb, hfallback, hc⟩
      show Quiet (answers (c.sendContAuth .publicKey c.activePlugin authPluginList).sent)
      rw [answers_sendContAuth]
      exact hquiet.publicKey
  · exact sound_negotiate h true data

theorem sound_accepted (h : c.Fresh) (cond : Bool) (data : Bytes) (pluginName : String)
    (isAuthenticated : Bool) (keys : String) :
    (c.accepted opts cond data pluginName isAuthenticated keys).Sound := by
  unfold accepted
  dsimp only
  split
  · obtain ⟨hquiet, hdpb, -, hc⟩ := h
    split
    · refine ⟨?_, hdpb, hc⟩
      show Once (answers (c.sent ++ [.contAuth .token legacyAuth legacyAuth]))
      rw [answers_append]
      exact hquiet.token
    · exact sound_finishPending hquiet.token hc
  split
  · have hfresh : ({ c with
        activePlugin := if pluginName = "" then plugin opts else pluginName, keys := keys } :
        Client).Fresh := h
    split
    · exact sound_restart hfresh 0 data
    · exact sound_negotiate hfresh false data
  · obtain ⟨hquiet, hdpb, -, hc⟩ := h
    exact sound_finish (once_carried hquiet.once hdpb) hc

/-- One more answer to a server that switches plugins: a public key, the token, or the proof of a
plugin that has not been tried. -/
theorem sound_switch {attempted : List String} {nextPlugin : String} {authData : AuthData}
    (h : c.Sound) (hphase : c.phase = .proving attempted) (hfallback : c.fallbackToken = false)
    (hphase' : c'.phase = .proving (nextPlugin :: attempted))
    (hsent : answers c'.sent = answers c.sent ++ [authData])
    (hdpb' : c'.dpbAuthData = c.dpbAuthData) (hc' : c'.continued = c.continued)
    (hproof : ∀ plugin hex, authData = .proof plugin hex → plugin = nextPlugin ∧ plugin ∉ attempted)
    (htoken : authData = .token → c'.fallbackToken = true) : c'.Sound := by
  unfold Sound at h ⊢
  rw [hphase] at h
  rw [hphase']
  obtain ⟨honce, hattempted, htokens, hdpb, hc⟩ := h
  have hzero := htokens hfallback
  have hnew (plugin : String) (hplugin : 0 < proofs plugin [authData]) :
      plugin = nextPlugin ∧ plugin ∉ attempted := by
    cases authData with
    | publicKey => exact absurd hplugin (Nat.lt_irrefl 0)
    | token => exact absurd hplugin (Nat.lt_irrefl 0)
    | proof plugin' hex =>
      rw [proofs_proof] at hplugin
      split at hplugin
      · rename_i hsame
        rw [← hsame]
        exact hproof plugin' hex rfl
      · exact absurd hplugin (Nat.lt_irrefl 0)
  have hone (plugin : String) : proofs plugin [authData] ≤ 1 := List.countP_le_length
  refine ⟨⟨fun plugin => ?_, ?_⟩, fun plugin hplugin => ?_, fun hno => ?_, hdpb'.trans hdpb,
    hc'.trans hc⟩
  · rw [hsent, proofs_append]
    by_cases hplugin : 0 < proofs plugin [authData]
    · have hfirst : ¬ 0 < proofs plugin (answers c.sent) := fun hpos =>
        (hnew plugin hplugin).2 (hattempted plugin hpos)
      have hle := hone plugin
      omega
    · have hle := honce.1 plugin
      omega
  · rw [hsent, tokens_append, hzero]
    have hle : tokens [authData] ≤ 1 := List.count_le_length
    omega
  · rw [hsent, proofs_append] at hplugin
    by_cases hold : 0 < proofs plugin (answers c.sent)
    · exact List.mem_cons_of_mem _ (hattempted plugin hold)
    · have hpos : 0 < proofs plugin [authData] := by omega
      rw [(hnew plugin hpos).1]
      exact List.mem_cons_self
  · rw [hsent, tokens_append, hzero]
    cases authData with
    | publicKey => rfl
    | proof plugin hex => rfl
    | token => exact absurd (hno.symm.trans (htoken rfl)) (by decide)

theorem sound_continueProof {attempted : List String} (h : c.Sound)
    (hphase : c.phase = .proving attempted) (data : Bytes) (pluginName keys : String) :
    (c.continueProof opts attempted data pluginName keys).Sound := by
  unfold continueProof
  dsimp only
  generalize (if pluginName = "" then c.activePlugin else pluginName) = nextPlugin
  have hkeys : (if keys = "" then c else { c with keys := keys }).Sound ∧
      (if keys = "" then c else { c with keys := keys }).phase = .proving attempted := by
    split
    · exact ⟨h, hphase⟩
    · exact ⟨h, hphase⟩
  generalize (if keys = "" then c else { c with keys := keys }) = c₁ at hkeys
  obtain ⟨h₁, hphase₁⟩ := hkeys
  have hfacts := h₁
  unfold Sound at hfacts
  rw [hphase₁] at hfacts
  obtain ⟨honce, -, -, -, hc⟩ := hfacts
  have hnone : tokens (answers c₁.continued) ≤ 1 := by
    rw [tokens_nil hc]
    exact Nat.zero_le 1
  split
  · exact sound_fail _ honce hnone
  rename_i hfallback
  have hfallback : c₁.fallbackToken = false := by simpa using hfallback
  split
  · exact h₁
  split
  · exact sound_fail _ honce hnone
  rename_i hnext
  split
  · apply sound_switch h₁ hphase₁ hfallback
    · rfl
    · exact answers_append _ _
    · rfl
    · rfl
    · exact fun _ _ hno => nomatch hno
    · exact fun _ => rfl
  split
  · exact sound_fail _ honce hnone
  split
  · apply sound_switch h₁ hphase₁ hfallback
    · rfl
    · exact answers_append _ _
    · rfl
    · rfl
    · exact fun _ _ hno => nomatch hno
    · exact fun hno => nomatch hno
  split
  · exact sound_fail _ honce hnone
  · apply sound_switch h₁ hphase₁ hfallback
    · rfl
    · exact answers_append _ _
    · rfl
    · rfl
    · intro plugin hex hproof
      obtain ⟨rfl, -⟩ := AuthData.proof.inj hproof
      exact ⟨rfl, hnext⟩
    · exact fun hno => nomatch hno

theorem sound_continueAttach {legacySent : Bool} (h : c.Sound)
    (hphase : c.phase = .attaching legacySent) (pending : PendingAuth) (data : Bytes)
    (pluginName : String) : (c.continueAttach opts legacySent pending data pluginName).Sound := by
  have hfacts := h
  unfold Sound at hfacts
  rw [hphase] at hfacts
  obtain ⟨honce, htokens⟩ := hfacts
  have hone : tokens (answers c.continued) ≤ 1 := by
    refine Nat.le_trans htokens ?_
    split <;> decide
  have hsent (authData : AuthData) (hauth : authData ≠ .token) (plugin pluginList : String) :
      (c.sendContinued authData plugin pluginList).Sound := by
    unfold Sound sendContinued
    rw [hphase]
    refine ⟨honce, ?_⟩
    rw [answers_append, tokens_append]
    have hzero : tokens (answers [.contAuth authData plugin pluginList]) = 0 := by
      cases authData with
      | publicKey => rfl
      | proof plugin hex => rfl
      | token => exact absurd rfl hauth
    omega
  unfold continueAttach
  dsimp only
  generalize (if pluginName = "" then pending.plugin else pluginName) = usePlugin
  split
  · split
    · exact sound_fail _ honce hone
    · rename_i hlegacy
      rw [if_neg hlegacy] at htokens
      refine ⟨honce, ?_⟩
      show tokens (answers (c.continued ++ [.contAuth .token legacyAuth legacyAuth])) ≤ 1
      rw [answers_append, tokens_append]
      exact Nat.add_le_add_right htokens 1
  split
  · apply hsent
    exact fun hno => nomatch hno
  split
  · exact sound_fail _ honce hone
  · apply hsent
    exact fun hno => nomatch hno

/-- What a message makes of the client, by what the client waits for. -/
inductive Stepped (opts : Options) (c : Client) (m : Message) : Client → Prop
  | failed (err : String) : Stepped opts c m (c.fail err)
  | accepted (cond : Bool) (data : Bytes) (pluginName : String) (isAuthenticated : Bool)
      (keys : String) (hphase : c.phase = .connecting) :
      Stepped opts c m (c.accepted opts cond data pluginName isAuthenticated keys)
  | restarted (rounds : Nat) (data : Bytes) (pluginName keys : String)
      (hphase : c.phase = .restarting rounds) :
      Stepped opts c m ({ c with activePlugin := pluginName, keys := keys }.restart opts rounds data)
  | drained (hphase : c.phase = .draining) : Stepped opts c m (c.finishPending opts)
  | proved (attempted : List String) (keyData : Bytes) (hphase : c.phase = .proving attempted) :
      Stepped opts c m ({ c with serverKeyData := keyData }.finishPending opts)
  | switched (attempted : List String) (data : Bytes) (pluginName keys : String)
      (hphase : c.phase = .proving attempted) :
      Stepped opts c m (c.continueProof opts attempted data pluginName keys)
  | encrypted (plugin : String) (hphase : c.phase = .crypting plugin) : Stepped opts c m c.attach
  | attached (legacySent : Bool) (hphase : c.phase = .attaching legacySent) :
      Stepped opts c m { c with phase := .attached }
  | asked (legacySent : Bool) (pending : PendingAuth) (data : Bytes) (pluginName keys : String)
      (hphase : c.phase = .attaching legacySent) (hpending : c.pendingAuth = some pending)
      (hm : m = .contAuth data pluginName keys) :
      Stepped opts c m (c.continueAttach opts legacySent pending data pluginName)

theorem step_cases {m : Message} (hstep : c.step opts m = some c') : Stepped opts c m c' := by
  unfold Client.step at hstep
  cases hphase : c.phase with
  | attached =>
    rw [hphase] at hstep
    cases hstep
  | failed err =>
    rw [hphase] at hstep
    cases hstep
  | connecting =>
    rw [hphase] at hstep
    obtain rfl := Option.some.inj hstep
    split
    · exact .failed _
    · exact .failed _
    · split
      · exact .failed _
      · exact .accepted _ _ _ _ _ hphase
    · split
      · exact .failed _
      · exact .accepted _ _ _ _ _ hphase
    · exact .failed _
  | restarting rounds =>
    rw [hphase] at hstep
    obtain rfl := Option.some.inj hstep
    split
    · exact .failed _
    · exact .restarted rounds _ _ _ hphase
    · exact .failed _
  | draining =>
    rw [hphase] at hstep
    obtain rfl := Option.some.inj hstep
    split
    · exact .drained hphase
    · exact .failed _
    · exact .failed _
    · exact .failed _
  | proving attempted =>
    rw [hphase] at hstep
    obtain rfl := Option.some.inj hstep
    split
    · exact .proved attempted _ hphase
    · exact .failed _
    · exact .switched attempted _ _ _ hphase
    · exact .failed _
  | crypting plugin =>
    rw [hphase] at hstep
    obtain rfl := Option.some.inj hstep
    split
    · exact .encrypted plugin hphase
    · exact .failed _
  | attaching legacySent =>
    rw [hphase] at hstep
    obtain rfl := Option.some.inj hstep
    split
    · exact .attached legacySent hphase
    · exact .failed _
    · rename_i hpending
      exact .asked legacySent _ _ _ _ hphase hpending rfl
    · exact .failed _

theorem Sound.once (h : c.Sound) : Once (answers c.sent) ∧ tokens (answers c.continued) ≤ 1 := by
  have hnone (hc : c.continued = []) : tokens (answers c.continued) ≤ 1 := by
    rw [tokens_nil hc]
    exact Nat.zero_le 1
  unfold Sound at h
  cases hphase : c.phase with
  | connecting =>
    rw [hphase] at h
    exact ⟨h.1.once, hnone h.2.2.2⟩
  | restarting rounds =>
    rw [hphase] at h
    exact ⟨h.1.once, hnone h.2.2.2⟩
  | draining =>
    rw [hphase] at h
    exact ⟨h.1, hnone h.2.2⟩
  | proving attempted =>
    rw [hphase] at h
    exact ⟨h.1, hnone h.2.2.2.2⟩
  | crypting plugin =>
    rw [hphase] at h
    exact ⟨h.1.left, hnone h.2⟩
  | attaching legacySent =>
    rw [hphase] at h
    refine ⟨h.1, Nat.le_trans h.2 ?_⟩
    split <;> decide
  | attached =>
    rw [hphase] at h
    exact h
  | failed err =>
    rw [hphase] at h
    exact h

theorem Sound.step (h : c.Sound) {m : Message} (hstep : c.step opts m = some c') : c'.Sound := by
  have hfacts := h
  unfold Sound at hfacts
  cases step_cases hstep with
  | failed err => exact sound_fail err h.once.1 h.once.2
  | accepted cond data pluginName isAuthenticated keys hphase =>
    rw [hphase] at hfacts
    exact sound_accepted hfacts _ _ _ _ _
  | restarted rounds data pluginName keys hphase =>
    rw [hphase] at hfacts
    apply sound_restart
    exact hfacts
  | drained hphase =>
    rw [hphase] at hfacts
    obtain ⟨honce, hdpb, hc⟩ := hfacts
    exact sound_finishPending (once_carried honce hdpb) hc
  | proved attempted keyData hphase =>
    rw [hphase] at hfacts
    obtain ⟨honce, -, -, hdpb, hc⟩ := hfacts
    exact sound_finishPending (once_carried honce hdpb) hc
  | switched attempted data pluginName keys hphase => exact sound_continueProof h hphase _ _ _
  | encrypted plugin hphase =>
    rw [hphase] at hfacts
    exact sound_attach hfacts.1 hfacts.2
  | attached legacySent hphase => exact h.once
  | asked legacySent pending data pluginName keys hphase => exact sound_continueAttach h hphase _ _ _

theorem sound_start : (start opts).Sound := ⟨⟨fun _ => rfl, rfl⟩, rfl, rfl, rfl⟩

theorem reachable_sound (h : (machine opts).Reachable (fun _ _ => True) c) : c.Sound := by
  apply h.invariant Sound
  · rintro c rfl
    exact sound_start
  · exact fun c m c' hc _ hstep => hc.step hstep

/-! The reply to the attach packet -/

/-- A server that wants no proof again, at attach time, from a plugin that has given one. -/
def Reoffers (c : Client) (m : Message) : Prop :=
  ∃ legacySent pending data pluginName keys, c.phase = .attaching legacySent ∧
    c.pendingAuth = some pending ∧ m = .contAuth data pluginName keys ∧ data ≠ [] ∧
      pending.legacyToken = false ∧
        0 < proofs (if pluginName = "" then pending.plugin else pluginName)
          (answers (c.sent ++ c.continued))

/-- What is sent behind the attach packet adds no second proof of a plugin. -/
def Singly (c : Client) : Prop :=
  match c.phase with
  | .attaching _ | .attached | .failed _ => ∀ plugin, proofs plugin (answers (c.sent ++ c.continued)) ≤ 1
  | _ => c.continued = []

theorem finish_keeps (opts : Options) (c : Client) : (c.finish opts).continued = c.continued ∧
    (c.finish opts).dpbAuthData = c.dpbAuthData := by
  have hunencrypted : (c.unencrypted opts).continued = c.continued ∧
      (c.unencrypted opts).dpbAuthData = c.dpbAuthData := by
    unfold unencrypted
    split <;> exact ⟨rfl, rfl⟩
  unfold finish
  split
  · exact hunencrypted
  · exact hunencrypted
  · exact hunencrypted
  · dsimp only
    split <;> exact ⟨rfl, rfl⟩

theorem negotiate_continued (opts : Options) (cond : Bool) (data : Bytes) (c : Client) :
    (c.negotiate opts cond data).continued = c.continued := by
  unfold negotiate
  split
  · dsimp only
    split
    · rfl
    · exact (finish_keeps opts _).1
  split
  · split
    · rfl
    split
    · rfl
    · dsimp only
      split
      · rfl
      · exact (finish_keeps opts _).1
  · exact (finish_keeps opts _).1

theorem restart_continued (opts : Options) (rounds : Nat) (data : Bytes) (c : Client) :
    (c.restart opts rounds data).continued = c.continued := by
  unfold restart
  split
  · split <;> rfl
  · exact negotiate_continued opts true data c

theorem accepted_continued (opts : Options) (cond : Bool) (data : Bytes) (pluginName : String)
    (isAuthenticated : Bool) (keys : String) (c : Client) :
    (c.accepted opts cond data pluginName isAuthenticated keys).continued = c.continued := by
  unfold accepted
  dsimp only
  split
  · split
    · rfl
    · exact (finish_keeps opts _).1
  split
  · split
    · exact restart_continued opts 0 data _
    · exact negotiate_continued opts false data _
  · exact (finish_keeps opts _).1

theorem continueProof_continued (opts : Options) (attempted : List String) (data : Bytes)
    (pluginName keys : String) (c : Client) :
    (c.continueProof opts attempted data pluginName keys).continued = c.continued := by
  unfold continueProof
  dsimp only
  generalize (if pluginName = "" then c.activePlugin else pluginName) = nextPlugin
  have hkeys : (if keys = "" then c else { c with keys := keys }).continued = c.continued := by
    split <;> rfl
  generalize (if keys = "" then c else { c with keys := keys }) = c₁ at hkeys
  split
  · exact hkeys
  split
  · exact hkeys
  split
  · exact hkeys
  split
  · exact hkeys
  split
  · exact hkeys
  split
  · exact hkeys
  split <;> exact hkeys

/-- Nothing comes behind the attach packet before it is sent. -/
theorem step_continued (hphase : ∀ legacySent, c.phase ≠ .attaching legacySent) {m : Message}
    (hstep : c.step opts m = some c') : c'.continued = c.continued := by
  cases step_cases hstep with
  | failed err => rfl
  | accepted => exact accepted_continued opts _ _ _ _ _ c
  | restarted => exact restart_continued opts _ _ _
  | drained => exact (finish_keeps opts _).1
  | proved => exact (finish_keeps opts _).1
  | switched => exact continueProof_continued opts _ _ _ _ c
  | encrypted => rfl
  | attached legacySent hattaching => exact absurd hattaching (hphase legacySent)
  | asked legacySent _ _ _ _ hattaching => exact absurd hattaching (hphase legacySent)

theorem singly_of_nil (hs : c.Sound) (hc : c.continued = []) : c.Singly := by
  have hone (plugin : String) : proofs plugin (answers (c.sent ++ c.continued)) ≤ 1 := by
    rw [hc, List.append_nil]
    exact hs.once.1.1 plugin
  unfold Singly
  split
  · exact hone
  · exact hone
  · exact hone
  · exact hc

theorem Singly.once (h : c.Singly) (hs : c.Sound) (plugin : String) :
    proofs plugin (answers (c.sent ++ c.continued)) ≤ 1 := by
  have hone := hs.once.1.1 plugin
  unfold Singly at h
  split at h
  · exact h plugin
  · exact h plugin
  · exact h plugin
  · rw [h, List.append_nil]
    exact hone

theorem singly_continueAttach {legacySent : Bool} {pending : PendingAuth} {data : Bytes}
    {pluginName keys : String} (hone : ∀ plugin, proofs plugin (answers (c.sent ++ c.continued)) ≤ 1)
    (hphase : c.phase = .attaching legacySent) (hpending : c.pendingAuth = some pending)
    (hok : ¬ c.Reoffers (.contAuth data pluginName keys)) :
    (c.continueAttach opts legacySent pending data pluginName).Singly := by
  have hsend (authData : AuthData) (plugin' pluginList : String)
      (hnew : ∀ plugin, proofs plugin [authData] = 0 ∨
        proofs plugin (answers (c.sent ++ c.continued)) = 0) (plugin : String) :
      proofs plugin (answers (c.sent ++ (c.continued ++
        [.contAuth authData plugin' pluginList]))) ≤ 1 := by
    rw [← List.append_assoc, answers_append, proofs_append]
    have hnewest : proofs plugin [authData] ≤ 1 := List.countP_le_length
    have hold := hone plugin
    show proofs plugin (answers (c.sent ++ c.continued)) + proofs plugin [authData] ≤ 1
    rcases hnew plugin with hzero | hzero <;> omega
  unfold continueAttach
  dsimp only
  generalize huse : (if pluginName = "" then pending.plugin else pluginName) = usePlugin
  split
  · split
    · exact hone
    · exact hsend _ _ _ fun _ => .inl rfl
  rename_i hsrp
  split
  · unfold Singly sendContinued
    rw [hphase]
    exact hsend _ _ _ fun _ => .inl rfl
  rename_i hdata
  split
  · exact hone
  · unfold Singly sendContinued
    rw [hphase]
    apply hsend
    intro plugin
    rw [proofs_proof]
    split
    · rename_i hsame
      have hlegacy : pending.legacyToken = false := by
        cases htoken : pending.legacyToken with
        | false => rfl
        | true => exact absurd (.inr htoken) hsrp
      refine .inr (Nat.eq_zero_of_not_pos fun hpos => hok ?_)
      rw [← hsame, ← huse] at hpos
      exact ⟨legacySent, pending, data, pluginName, keys, hphase, hpending, rfl, hdata, hlegacy,
        hpos⟩
    · exact .inl rfl

theorem Singly.step (h : c.Singly) (hs : c.Sound) {m : Message} (hok : ¬ c.Reoffers m)
    (hstep : c.step opts m = some c') : c'.Singly := by
  have hs' := hs.step hstep
  have hfacts := h
  unfold Singly at hfacts
  have hearly (hnil : c.continued = []) (hphase : ∀ legacySent, c.phase ≠ .attaching legacySent) :
      c'.Singly := by
    apply singly_of_nil hs'
    rw [step_continued hphase hstep]
    exact hnil
  cases step_cases hstep with
  | failed err => exact h.once hs
  | accepted _ _ _ _ _ hphase =>
    rw [hphase] at hfacts
    exact hearly hfacts (by rw [hphase]; exact nofun)
  | restarted _ _ _ _ hphase =>
    rw [hphase] at hfacts
    exact hearly hfacts (by rw [hphase]; exact nofun)
  | drained hphase =>
    rw [hphase] at hfacts
    exact hearly hfacts (by rw [hphase]; exact nofun)
  | proved _ _ hphase =>
    rw [hphase] at hfacts
    exact hearly hfacts (by rw [hphase]; exact nofun)
  | switched _ _ _ _ hphase =>
    rw [hphase] at hfacts
    exact hearly hfacts (by rw [hphase]; exact nofun)
  | encrypted _ hphase =>
    rw [hphase] at hfacts
    exact hearly hfacts (by rw [hphase]; exact nofun)
  | attached => exact h.once hs
  | asked _ pending _ _ _ hphase hpending hm =>
    exact singly_continueAttach (h.once hs) hphase hpending (hm ▸ hok)

theorem reachable_singly (h : (machine opts).Reachable (fun c m => ¬ c.Reoffers m) c) :
    c.Sound ∧ c.Singly := by
  apply h.invariant fun c => c.Sound ∧ c.Singly
  · rintro c rfl
    exact ⟨sound_start, rfl⟩
  · exact fun c m c' hc hok hstep => ⟨hc.1.step hstep, hc.2.step hc.1 hok hstep⟩

/-! Salt and key are answered -/

/-- The plugin that a message is from, and its data. -/
def offered (opts : Options) (c : Client) (m : Message) : Option (String × Bytes) :=
  match c.phase, m with
  | .connecting, .acceptData _ _ data pluginName _ _ =>
    some (if pluginName = "" then plugin opts else pluginName, data)
  | .restarting _, .contAuth data pluginName _ =>
    some (if pluginName = "" then c.activePlugin else pluginName, data)
  | .proving _, .contAuth data pluginName _ =>
    some (if pluginName = "" then c.activePlugin else pluginName, data)
  | .attaching _, .contAuth data pluginName _ =>
    c.pendingAuth.map fun pending => (if pluginName = "" then pending.plugin else pluginName, data)
  | _, _ => none

/-- The server has not authenticated the client, and neither the options nor the server have turned
it to the legacy plugin. -/
def Negotiating (opts : Options) (c : Client) (m : Message) : Prop :=
  match c.phase, m with
  | .connecting, .acceptData cond version _ _ isAuthenticated _ =>
    13 ≤ version ∧ isLegacy opts = false ∧ (isAuthenticated = false ∨ cond = true)
  | .restarting _, _ => True
  | .proving _, _ => c.fallbackToken = false
  | .attaching _, _ => ∀ pending, c.pendingAuth = some pending → pending.legacyToken = false
  | _, _ => False

/-- A plugin that the server has switched to behind the first proof. -/
def Tried (c : Client) (plugin : String) : Prop :=
  ∃ attempted, c.phase = .proving attempted ∧ plugin ∈ attempted

/-- The client has sent a proof, or the attach packet is to carry it, behind the encryption that it
waits for; or it has given up for want of that. -/
def Answered (c : Client) (authData : AuthData) : Prop :=
  authData ∈ answers (c.sent ++ c.continued) ∨ c.dpbAuthData = some authData ∧
    ((∃ plugin, c.phase = .crypting plugin) ∨ ∃ err, c.phase = .failed err)

theorem answered_finish {authData : AuthData} (hdpb : c.dpbAuthData = some authData) :
    (c.finish opts).Answered authData := by
  have hattach : c.attach.Answered authData := by
    refine .inl ?_
    show authData ∈ answers (c.sent ++ [.attach c.dpbAuthData] ++ c.continued)
    rw [answers_append, answers_append, answers_attach, hdpb]
    exact List.mem_append_left _ (List.mem_append_right _ List.mem_cons_self)
  have hunencrypted : (c.unencrypted opts).Answered authData := by
    unfold unencrypted
    split
    · exact .inr ⟨hdpb, .inr ⟨_, rfl⟩⟩
    · exact hattach
  unfold finish
  split
  · exact hunencrypted
  · exact hunencrypted
  · exact hunencrypted
  · dsimp only
    split
    · exact .inr ⟨hdpb, .inl ⟨_, rfl⟩⟩
    · exact .inr ⟨hdpb, .inr ⟨_, rfl⟩⟩

theorem answered_send (authData : AuthData) (plugin pluginList : String) (phase : Phase) :
    ({ c.sendContAuth authData plugin pluginList with phase := phase } : Client).Answered
      authData := by
  refine .inl ?_
  show authData ∈ answers (c.sent ++ [.contAuth authData plugin pluginList] ++ c.continued)
  rw [answers_append, answers_append]
  exact List.mem_append_left _ (List.mem_append_right _ List.mem_cons_self)

theorem srp_not_legacy {plugin : String} (h : startsWithSrp plugin = true) :
    plugin ≠ legacyAuth := by
  rintro rfl
  cases h

theorem answered_negotiate {plugin : String} {data : Bytes} {proof : SrpProof}
    (hname : c.activePlugin = plugin) (hdata : data ≠ []) (hsrp : startsWithSrp plugin = true)
    (hproof : proofFor opts plugin data = .ok proof) (cond : Bool) :
    (c.negotiate opts cond data).Answered (.proof plugin proof.proofHex) := by
  subst hname
  unfold negotiate
  rw [if_neg (srp_not_legacy hsrp), if_pos hdata, if_neg (by rw [hsrp]; decide), hproof]
  dsimp only
  split
  · exact answered_send _ _ _ _
  · exact answered_finish rfl

theorem answered_restart {plugin : String} {data : Bytes} {proof : SrpProof}
    (hname : c.activePlugin = plugin) (hdata : data ≠ []) (hsrp : startsWithSrp plugin = true)
    (hproof : proofFor opts plugin data = .ok proof) (rounds : Nat) :
    (c.restart opts rounds data).Answered (.proof plugin proof.proofHex) := by
  unfold restart
  rw [if_neg (fun hno => hdata hno.1)]
  exact answered_negotiate hname hdata hsrp hproof true

theorem answers_offer {m : Message} {plugin : String} {data : Bytes} {proof : SrpProof}
    (hoffered : c.offered opts m = some (plugin, data)) (hopen : c.Negotiating opts m)
    (hdata : data ≠ []) (hsrp : startsWithSrp plugin = true)
    (hproof : proofFor opts plugin data = .ok proof) (htried : ¬ c.Tried plugin) :
    ∃ c', c.step opts m = some c' ∧ c'.Answered (.proof plugin proof.proofHex) := by
  unfold offered at hoffered
  unfold Negotiating at hopen
  unfold Client.step
  split at hoffered
  · rename_i cond version data' pluginName isAuthenticated keys hphase
    obtain ⟨hname, rfl⟩ := Prod.mk.inj (Option.some.inj hoffered)
    rw [hphase] at hopen ⊢
    obtain ⟨hversion, hlegacy, hcond⟩ := hopen
    refine ⟨_, rfl, ?_⟩
    dsimp only
    rw [if_neg (Nat.not_lt.mpr hversion)]
    unfold accepted
    dsimp only
    have hcontinue : (!isAuthenticated) = true ∨ cond = true := by
      rcases hcond with hauth | hcond
      · rw [hauth]
        exact .inl rfl
      · exact .inr hcond
    rw [if_neg (fun hno => absurd (hlegacy.symm.trans hno.1) (by decide)), if_pos hcontinue]
    split
    · exact answered_restart hname hdata hsrp hproof 0
    · exact answered_negotiate hname hdata hsrp hproof false
  · rename_i rounds data' pluginName keys hphase
    obtain ⟨hname, rfl⟩ := Prod.mk.inj (Option.some.inj hoffered)
    rw [hphase]
    exact ⟨_, rfl, answered_restart hname hdata hsrp hproof rounds⟩
  · rename_i attempted data' pluginName keys hphase
    obtain ⟨hplugin, rfl⟩ := Prod.mk.inj (Option.some.inj hoffered)
    rw [hphase] at hopen ⊢
    refine ⟨_, rfl, ?_⟩
    dsimp only
    unfold continueProof
    dsimp only
    rw [hplugin]
    have hkeys : (if keys = "" then c else { c with keys := keys }).fallbackToken = false := by
      split <;> exact hopen
    generalize (if keys = "" then c else { c with keys := keys }) = c₁ at hkeys
    have hnew : plugin ∉ attempted := fun hmem => htried ⟨attempted, hphase, hmem⟩
    rw [if_neg (by rw [hkeys]; decide), if_neg (fun hno => hdata hno.1), if_neg hnew,
      if_neg (srp_not_legacy hsrp), if_neg (by rw [hsrp]; decide), if_neg hdata, hproof]
    exact answered_send _ _ _ (.proving (plugin :: attempted))
  · rename_i legacySent data' pluginName keys hphase
    obtain ⟨pending, hpending, hpair⟩ := Option.map_eq_some_iff.mp hoffered
    obtain ⟨hplugin, rfl⟩ := Prod.mk.inj hpair
    rw [hphase] at hopen ⊢
    refine ⟨_, rfl, ?_⟩
    rw [hpending]
    dsimp only
    unfold continueAttach
    dsimp only
    rw [hplugin]
    have hlegacy : ¬ (plugin = legacyAuth ∨ pending.legacyToken = true) := by
      rintro (hname | htoken)
      · exact srp_not_legacy hsrp hname
      · exact absurd ((hopen pending hpending).symm.trans htoken) (by decide)
    rw [if_neg hlegacy, if_neg hdata, hproof]
    refine .inl ?_
    show _ ∈ answers (c.sent ++ (c.continued ++ [.contAuth _ plugin authPluginList]))
    rw [answers_append, answers_append]
    exact List.mem_append_right _ (List.mem_append_right _ List.mem_cons_self)
  · cases hoffered

/-- The handshake gives every plugin's proof once and the token once, and so does the reply to the
attach packet the token, and the proofs if the server asks for none that it has had; and salt and key
from a plugin that has not been tried are answered with its proof. -/
theorem one_proof_per_plugin (opts : Options) {c : Client}
    (h : (machine opts).Reachable (fun _ _ => True) c) :
    Once (answers c.sent) ∧ tokens (answers c.continued) ≤ 1 ∧
    ((machine opts).Reachable (fun c m => ¬ c.Reoffers m) c →
      ∀ plugin, proofs plugin (answers (c.sent ++ c.continued)) ≤ 1) ∧
    (∀ (m : Message) (plugin : String) (data : Bytes) (proof : SrpProof),
      c.offered opts m = some (plugin, data) → c.Negotiating opts m → data ≠ [] →
      startsWithSrp plugin = true → proofFor opts plugin data = .ok proof → ¬ c.Tried plugin →
        ∃ c', c.step opts m = some c' ∧ c'.Answered (.proof plugin proof.proofHex)) ∧
    ∀ plugin authData data, c.phase = .crypting plugin → c.dpbAuthData = some authData →
      ∃ c', c.step opts (.response data none) = some c' ∧ authData ∈ answers c'.sent := by
  have hs := reachable_sound h
  refine ⟨hs.once.1, hs.once.2, ?_, ?_, ?_⟩
  · intro hsingly
    exact (reachable_singly hsingly).2.once hs
  · exact fun m plugin data proof ho hn hd hsrp hp ht => answers_offer ho hn hd hsrp hp ht
  · intro plugin authData data hphase hdpb
    refine ⟨c.attach, ?_, ?_⟩
    · unfold Client.step
      rw [hphase]
    · show authData ∈ answers (c.sent ++ [.attach c.dpbAuthData])
      rw [answers_append, answers_attach, hdpb]
      exact List.mem_append_right _ List.mem_cons_self

/-- No encryption, and a proof that is the same for every salt. -/
def plainOptions : Options :=
  { authPlugin := none
    wireCrypt := .disabled
    selectCryptPlugin := fun _ => none
    findPluginIv := fun _ _ => none
    computeProof := fun plugin _ _ => .ok ⟨plugin, [1]⟩ }

/-- No salt, and a key of one digit. -/
def saltAndKey : Bytes := [0, 0, 1, 0, 65]

theorem one_proof_per_plugin_switch :
    ∃ c : Client, answers c.sent = [.proof "Srp256" "Srp256", .proof "Srp" "Srp"] ∧
      Once (answers c.sent) := by
  have h₀ : (machine plainOptions).Reachable (fun _ _ => True) (start plainOptions) := .init rfl
  have h₁ := h₀.step (e := Message.acceptData true 16 saltAndKey "Srp256" false "") trivial rfl
  have h₂ := h₁.step (e := Message.contAuth saltAndKey "Srp" "") trivial rfl
  exact ⟨_, rfl, (one_proof_per_plugin plainOptions h₂).1⟩

/-- A server that has had the legacy token gets no proof of another plugin. -/
theorem no_proof_behind_token :
    ¬ ∀ c : Client, (machine plainOptions).Reachable (fun _ _ => True) c →
      ∀ (m : Message) (plugin : String) (data : Bytes) (proof : SrpProof),
        c.offered plainOptions m = some (plugin, data) → data ≠ [] → startsWithSrp plugin = true →
        proofFor plainOptions plugin data = .ok proof →
        proofs plugin (answers (c.sent ++ c.continued)) = 0 →
          ∃ c', c.step plainOptions m = some c' ∧ ∀ err, c'.phase ≠ .failed err := by
  intro hall
  have h₀ : (machine plainOptions).Reachable (fun _ _ => True) (start plainOptions) := .init rfl
  have h₁ := h₀.step (e := Message.acceptData true 16 saltAndKey "Srp256" false "") trivial rfl
  have h₂ := h₁.step (e := Message.contAuth [] legacyAuth "") trivial rfl
  obtain ⟨c', hstep, hopen⟩ := hall _ h₂ (.contAuth saltAndKey "Srp" "") "Srp" saltAndKey
    ⟨"Srp", [1]⟩ rfl (by decide) (by decide) rfl rfl
  obtain rfl := Option.some.inj hstep
  exact hopen loginError rfl

end Client
end FastFirebird.Handshake
