import FastFirebird.Packet
import FastFirebird.Machine

/-! `protocol/handshake.ts`: the client's side of a connection attempt, one step for every message
that the server sends. -/
namespace FastFirebird.Handshake

def legacyAuth : String := "Legacy_Auth"

/-- `AUTH_PLUGIN_LIST` -/
def authPluginList : String := "Srp256,Srp,Legacy_Auth"

def loginError : String :=
  "Your user name and password are not defined. Ask your database administrator to set up a " ++
    "Firebird login."

inductive WireCryptLevel where
  | disabled
  | enabled
  | required
  deriving Repr, DecidableEq

structure SrpProof where
  proofHex : String
  sessionKey : Bytes
  deriving Repr, DecidableEq

/-- The options, with what is computed from the password and the key pair. -/
structure Options where
  authPlugin : Option String
  wireCrypt : WireCryptLevel
  selectCryptPlugin : (keys : String) → Option String
  findPluginIv : Bytes → (plugin : String) → Option Bytes
  computeProof : (plugin : String) → (salt serverKeyHex : Bytes) → Except String SrpProof

/-- What authenticates the client. -/
inductive AuthData where
  | publicKey
  | proof (plugin proofHex : String)
  | token
  deriving Repr, DecidableEq

inductive Sent where
  | connect (plugin pluginList : String) (specificData : AuthData)
  | contAuth (authData : AuthData) (plugin pluginList : String)
  | crypt (plugin : String)
  | attach (dpbAuthData : Option AuthData)
  deriving Repr, DecidableEq

inductive Message where
  | response (data : Bytes) (failure : Option String)
  | reject
  | accept (version : Nat)
  /-- `op_cond_accept` or `op_accept_data` -/
  | acceptData (cond : Bool) (version : Nat) (data : Bytes) (pluginName : String)
      (isAuthenticated : Bool) (keys : String)
  | contAuth (data : Bytes) (pluginName keys : String)
  | other (op : Nat)
  deriving Repr, DecidableEq

def Message.op : Message → Nat
  | .response _ _ => 9
  | .reject => 4
  | .accept _ => 3
  | .acceptData cond _ _ _ _ _ => if cond then 98 else 94
  | .contAuth _ _ _ => 92
  | .other op => op

/-- `legacyToken`: whether there is one. -/
structure PendingAuth where
  plugin : String
  legacyToken : Bool
  deriving Repr, DecidableEq

/-- What the client waits for. -/
inductive Phase where
  | connecting
  /-- for salt and key behind a public key, before any proof -/
  | restarting (rounds : Nat)
  /-- for the outcome of a legacy token -/
  | draining
  /-- for the outcome of a proof, or of what came behind it -/
  | proving (attempted : List String)
  | crypting (plugin : String)
  | attaching (legacySent : Bool)
  | attached
  | failed (err : String)
  deriving Repr, DecidableEq

/-- `continued` has what is sent behind the attach packet. -/
structure Client where
  phase : Phase
  sent : List Sent
  continued : List Sent := []
  activePlugin : String := ""
  keys : String := ""
  serverKeyData : Bytes := []
  sessionKey : Option Bytes := none
  dpbAuthData : Option AuthData := none
  pendingAuth : Option PendingAuth := none
  fallbackToken : Bool := false

def startsWithSrp (plugin : String) : Bool := plugin.toList.take 3 == ['S', 'r', 'p']

def readUInt16LE (data : Bytes) (offset : Nat) : Except String Nat :=
  match data.drop offset with
  | lo :: hi :: _ => .ok (lo.toNat + 256 * hi.toNat)
  | _ => .error "The value of \"offset\" is out of range."

def isHexDigit (b : UInt8) : Bool :=
  (48 ≤ b && b ≤ 57) || (65 ≤ b && b ≤ 70) || (97 ≤ b && b ≤ 102)

/-- The salt, and the server's public key as hex digits. -/
def parseServerAuthData (data : Bytes) : Except String (Bytes × Bytes) := do
  if data.length < 4 then throw "SRP server data too short"
  let saltLen ← readUInt16LE data 0
  let salt := (data.drop 2).take saltLen
  let keyLen ← readUInt16LE data (2 + saltLen)
  let aligned := (saltLen + 2 + 3) / 4 * 4
  -- some servers align the key field
  let (off, keyLen) ←
    if 2 + saltLen + 2 + keyLen ≠ data.length ∧ aligned + 2 ≤ data.length then
      (do pure (aligned, ← readUInt16LE data aligned))
    else pure (2 + saltLen, keyLen)
  let serverKeyHex := (data.drop (off + 2)).take keyLen
  if serverKeyHex.isEmpty || !serverKeyHex.all isHexDigit then
    throw "SRP server public key is not valid hex"
  pure (salt, serverKeyHex)

namespace Client

variable (opts : Options)

def isLegacy : Bool := opts.authPlugin == some legacyAuth

def plugin : String :=
  if isLegacy opts then legacyAuth else opts.authPlugin.getD "Srp256"

/-- The connect packet. -/
def start : Client :=
  { phase := .connecting
    sent := [.connect (plugin opts) (if isLegacy opts then legacyAuth else authPluginList)
      (if isLegacy opts then .token else .publicKey)] }

def proofFor (plugin : String) (data : Bytes) : Except String SrpProof := do
  let (salt, serverKeyHex) ← parseServerAuthData data
  opts.computeProof plugin salt serverKeyHex

def fail (err : String) (c : Client) : Client := { c with phase := .failed err }

def sendContAuth (authData : AuthData) (plugin pluginList : String) (c : Client) : Client :=
  { c with sent := c.sent ++ [.contAuth authData plugin pluginList] }

def attach (c : Client) : Client :=
  { c with sent := c.sent ++ [.attach c.dpbAuthData], phase := .attaching false }

/-- The end of a handshake without encryption. -/
def unencrypted (c : Client) : Client :=
  if opts.wireCrypt = .required then
    c.fail (if (c.pendingAuth.map PendingAuth.plugin) = some legacyAuth then
      "wireCrypt=required but the server authenticated via Legacy_Auth, which yields no session " ++
        "key for wire encryption"
    else "wireCrypt=required but wire encryption could not be established")
  else c.attach

/-- What comes behind the authentication. -/
def finish (c : Client) : Client :=
  match opts.wireCrypt, c.sessionKey, opts.selectCryptPlugin c.keys with
  | .disabled, _, _ | _, none, _ | _, some _, none => c.unencrypted opts
  | _, some _, some plugin =>
    let c := { c with sent := c.sent ++ [Sent.crypt plugin] }
    if plugin = "Arc4" ∨ opts.findPluginIv c.serverKeyData plugin ≠ none then
      { c with phase := .crypting plugin }
    else c.fail ("Server did not advertise a " ++ plugin ++ " IV; this server build only supports " ++
      "Arc4 wire encryption. Use wireCryptPlugin:'Arc4' (default) or wireCrypt:'disabled'.")

/-- `finish` with the continuation at attach time still open. -/
def finishPending (c : Client) : Client :=
  { c with pendingAuth := some ⟨c.activePlugin, c.fallbackToken⟩ }.finish opts

/-- The salt and the key have come, or there are none, or the plugin is the legacy one. -/
def negotiate (cond : Bool) (data : Bytes) (c : Client) : Client :=
  if c.activePlugin = legacyAuth then
    let c := { c with fallbackToken := true }
    if cond then
      { c.sendContAuth .token legacyAuth legacyAuth with phase := .draining }
    else { c with dpbAuthData := some .token }.finishPending opts
  else if data ≠ [] then
    if !startsWithSrp c.activePlugin then
      c.fail ("Server requested unsupported auth plugin '" ++ c.activePlugin ++ "'")
    else match proofFor opts c.activePlugin data with
      | .error err => c.fail err
      | .ok proof =>
        let c := { c with sessionKey := some proof.sessionKey }
        if cond then
          { c.sendContAuth (.proof c.activePlugin proof.proofHex) c.activePlugin c.activePlugin with
            phase := .proving [c.activePlugin] }
        else
          { c with dpbAuthData := some (.proof c.activePlugin proof.proofHex) }.finishPending opts
  else c.finishPending opts

/-- The restart rounds: a public key for every plugin that comes without data. -/
def restart (rounds : Nat) (data : Bytes) (c : Client) : Client :=
  if data = [] ∧ c.activePlugin ≠ legacyAuth then
    if rounds + 1 > 4 then c.fail "SRP negotiation did not converge"
    else
      { c.sendContAuth .publicKey c.activePlugin authPluginList with
        phase := .restarting (rounds + 1) }
  else c.negotiate opts true data

def accepted (cond : Bool) (data : Bytes) (pluginName : String) (isAuthenticated : Bool)
    (keys : String) (c : Client) : Client :=
  let c := { c with
    activePlugin := if pluginName = "" then plugin opts else pluginName, keys := keys }
  if isLegacy opts ∧ (!isAuthenticated ∨ cond) then
    -- the same pending authentication as behind a fallback
    let c := { c with activePlugin := legacyAuth, fallbackToken := true }
    if cond then { c.sendContAuth .token legacyAuth legacyAuth with phase := .draining }
    else { c with dpbAuthData := some .token }.finishPending opts
  else if !isAuthenticated ∨ cond then
    if cond then c.restart opts 0 data else c.negotiate opts false data
  else c.finish opts

/-- `op_cont_auth` behind a proof: each plugin gets one attempt. -/
def continueProof (attempted : List String) (data : Bytes) (pluginName keys : String) (c : Client) :
    Client :=
  let nextPlugin := if pluginName = "" then c.activePlugin else pluginName
  let c := if keys = "" then c else { c with keys := keys }
  if c.fallbackToken then c.fail loginError
  else if data = [] ∧ nextPlugin = c.activePlugin then c
  else if nextPlugin ∈ attempted then c.fail loginError
  else
    let c := { c with phase := .proving (nextPlugin :: attempted) }
    if nextPlugin = legacyAuth then
      { c with activePlugin := legacyAuth, sessionKey := none, fallbackToken := true }.sendContAuth
        .token legacyAuth legacyAuth
    else if !startsWithSrp nextPlugin then
      c.fail ("Server switched to unsupported auth plugin '" ++ nextPlugin ++ "'")
    else
      let c := { c with activePlugin := nextPlugin }
      if data = [] then c.sendContAuth .publicKey nextPlugin authPluginList
      else match proofFor opts nextPlugin data with
        | .error err => c.fail err
        | .ok proof =>
          { c with sessionKey := some proof.sessionKey }.sendContAuth
            (.proof nextPlugin proof.proofHex) nextPlugin nextPlugin

def sendContinued (authData : AuthData) (plugin pluginList : String) (c : Client) : Client :=
  { c with continued := c.continued ++ [.contAuth authData plugin pluginList] }

/-- `op_cont_auth` to `readResponseWithAuth`. -/
def continueAttach (legacySent : Bool) (pending : PendingAuth) (data : Bytes) (pluginName : String)
    (c : Client) : Client :=
  let usePlugin := if pluginName = "" then pending.plugin else pluginName
  if usePlugin = legacyAuth ∨ pending.legacyToken then
    if legacySent then c.fail loginError
    else
      { c with
        phase := .attaching true
        pendingAuth := some { pending with plugin := legacyAuth, legacyToken := true } }.sendContinued
        .token legacyAuth legacyAuth
  else if data = [] then c.sendContinued .publicKey usePlugin authPluginList
  else match proofFor opts usePlugin data with
    | .error err => c.fail err
    | .ok proof => c.sendContinued (.proof usePlugin proof.proofHex) usePlugin authPluginList

def step (c : Client) (m : Message) : Option Client :=
  match c.phase with
  | .attached | .failed _ => none
  | .connecting => some <|
    match m with
    | .response _ failure => c.fail (failure.getD "Server rejected connection")
    | .reject => c.fail "Server rejected the connection (op_reject)"
    | .accept version =>
      if version < 13 then c.fail ("Server negotiated protocol " ++ toString version ++
        "; fast-firebird requires Firebird 3+ (protocol 13)")
      else c.accepted opts false [] "" true ""
    | .acceptData cond version data pluginName isAuthenticated keys =>
      if version < 13 then c.fail ("Server negotiated protocol " ++ toString version ++
        "; fast-firebird requires Firebird 3+ (protocol 13)")
      else c.accepted opts cond data pluginName isAuthenticated keys
    | m => c.fail ("Unexpected handshake response op " ++ toString m.op)
  | .restarting rounds => some <|
    match m with
    | .response _ failure => c.fail
      (failure.getD "Server ended auth negotiation without credentials exchange")
    | .contAuth data pluginName keys =>
      { c with
        activePlugin := if pluginName = "" then c.activePlugin else pluginName
        keys := keys }.restart opts rounds data
    | m => c.fail ("Expected op_cont_auth, got " ++ toString m.op)
  | .draining => some <|
    match m with
    | .response _ none => c.finishPending opts
    | .response _ (some failure) => c.fail failure
    | .contAuth _ _ _ => c.fail loginError
    | m => c.fail ("Unexpected op " ++ toString m.op ++ " during Legacy_Auth continuation")
  | .proving attempted => some <|
    match m with
    | .response data none =>
      { c with serverKeyData := if data = [] then c.serverKeyData else data }.finishPending opts
    | .response _ (some failure) => c.fail failure
    | .contAuth data pluginName keys => c.continueProof opts attempted data pluginName keys
    | m => c.fail ("Unexpected op " ++ toString m.op ++ " during auth continuation")
  | .crypting plugin => some <|
    match m with
    | .response _ none => c.attach
    | _ => c.fail ("Wire encryption (" ++ plugin ++ ") was refused by the server — it likely has " ++
      "WireCrypt=Disabled. Set wireCrypt:'disabled' on the client to connect unencrypted.")
  | .attaching legacySent => some <|
    match m, c.pendingAuth with
    | .response _ none, _ => { c with phase := .attached }
    | .response _ (some failure), _ => c.fail failure
    | .contAuth data pluginName _, some pending =>
      c.continueAttach opts legacySent pending data pluginName
    | m, _ => c.fail ("Unexpected op " ++ toString m.op ++ " while awaiting response")

def machine : Machine Client Message := ⟨(· = start opts), step opts⟩

end Client
end FastFirebird.Handshake
