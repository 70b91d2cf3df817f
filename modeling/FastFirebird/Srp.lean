import FastFirebird.Packet
import Mathlib.Data.Int.ModEq

/-! `protocol/auth/srp.ts`: the client's side of SRP-6a, for whatever the hashes compute. -/
namespace FastFirebird.Srp

def N : Int :=
  0xE67D2E994B2F900C3F41F08F5BB2627ED0D49EE1FE767A52EFCD565CD6E768812C3E1E9CE8F0A8BEA6CB13CD29DDEBF7A96D4A93B55D488DF099A15C89DCB0640738EB2CBDD9A8F7BAB561AB1B0DC1C6CDABF303264A08D1BCA932D1F1EE428B619D970F342ABA9A65793B8B2F041AE5364350C16F735F56ECBCA87BD57B29E7

def g : Int := 2

def keyBytes : Nat := 128

inductive SrpHash where
  | sha1
  | sha256
  deriving Repr, DecidableEq

def proofHashFor (plugin : String) : Except String SrpHash :=
  if plugin = "Srp" then .ok .sha1
  else if plugin = "Srp256" then .ok .sha256
  else .error ("Unsupported SRP plugin: " ++ plugin)

/-- The loop of `modPow`; `%` on a bigint truncates. -/
def modPowLoop (mod base result : Int) (exp : Nat) : Int :=
  if exp = 0 then result
  else
    modPowLoop mod ((base * base).tmod mod)
      (if exp % 2 = 1 then (result * base).tmod mod else result) (exp / 2)
termination_by exp
decreasing_by omega

def modPow (base exp mod : Int) : Int :=
  let base := base.tmod mod
  let base := if base < 0 then base + mod else base
  modPowLoop mod base 1 exp.toNat

/-- The bytes of a number, as many as it takes. -/
def bigIntToBuffer (v : Nat) : Bytes :=
  if v < 256 then [UInt8.ofNat v] else bigIntToBuffer (v / 256) ++ [UInt8.ofNat (v % 256)]
termination_by v
decreasing_by omega

def bufferToBigInt (buf : Bytes) : Nat := buf.foldl (fun v b => 256 * v + b.toNat) 0

/-- Left-pads to the group size. -/
def pad (v : Nat) : Bytes :=
  let b := bigIntToBuffer v
  if b.length ≥ keyBytes then b.drop (b.length - keyBytes)
  else List.replicate (keyBytes - b.length) 0 ++ b

/-- `v.toString(16)` -/
def toHex (v : Nat) : String := String.ofList (Nat.toDigits 16 v)

def hexValue (b : UInt8) : Except String Nat :=
  if 48 ≤ b ∧ b ≤ 57 then .ok (b.toNat - 48)
  else if 65 ≤ b ∧ b ≤ 70 then .ok (b.toNat - 55)
  else if 97 ≤ b ∧ b ≤ 102 then .ok (b.toNat - 87)
  else .error "Cannot convert to a BigInt"

/-- `BigInt('0x' + hex)` -/
def bigIntOfHex (hex : Bytes) : Except String Nat :=
  if hex = [] then .error "Cannot convert 0x to a BigInt"
  else hex.foldlM (fun v b => (hexValue b).map (16 * v + ·)) 0

structure Hashes where
  sha1 : Bytes → Bytes
  sha256 : Bytes → Bytes

def Hashes.digest (H : Hashes) : SrpHash → Bytes → Bytes
  | .sha1 => H.sha1
  | .sha256 => H.sha256

def utf8 (s : String) : Bytes := s.toUTF8.data.toList

structure SrpEphemeral where
  a : Int
  A : Int
  publicHex : String

/-- One round of `generateEphemeral`; without a seed the next one draws other bytes. -/
def generateEphemeral (seed : Bytes) : Except String SrpEphemeral :=
  let a := (bufferToBigInt seed : Int).tmod N
  let A := modPow g a N
  if A > 1 then .ok ⟨a, A, toHex A.toNat⟩
  else .error "Provided SRP seed produces a trivial public key"

structure SrpProof where
  proofHex : String
  sessionKey : Bytes
  deriving Repr, DecidableEq

/-- The secret `S`; the exponent is reduced by `N` too. -/
def secret (k u x : Nat) (a B : Int) : Int :=
  let gx := modPow g x N
  let base := (B - (k * gx).tmod N).tmod N
  let base := if base < 0 then base + N else base
  let exp := (a + u * x).tmod N
  modPow base exp N

section Proof
variable (H : Hashes)

def hashBigInt (parts : List Bytes) : Nat := bufferToBigInt (H.sha1 parts.flatten)

/-- The scramble `u`, from the minimal bytes of the keys. -/
def scramble (A B : Int) : Nat := hashBigInt H [bigIntToBuffer A.toNat, bigIntToBuffer B.toNat]

/-- The multiplier `k`. -/
def multiplier : Nat := hashBigInt H [pad N.toNat, pad g.toNat]

/-- The private key `x`. -/
def privateKey (userUpper : Bytes) (password : String) (salt : Bytes) : Nat :=
  hashBigInt H [salt, H.sha1 (userUpper ++ utf8 ":" ++ utf8 password)]

/-- The session key and the proof, from the secret. -/
def proofOf (plugin : String) (userUpper salt : Bytes) (A B S : Int) : Except String SrpProof :=
  let K := H.sha1 (bigIntToBuffer S.toNat)
  let n1 := modPow (hashBigInt H [bigIntToBuffer N.toNat]) (hashBigInt H [bigIntToBuffer g.toNat]) N
  let n2 := bufferToBigInt (H.sha1 userUpper)
  (proofHashFor plugin).map fun hash =>
    let M := bufferToBigInt (H.digest hash (bigIntToBuffer n1.toNat ++ bigIntToBuffer n2 ++ salt ++
      bigIntToBuffer A.toNat ++ bigIntToBuffer B.toNat ++ K))
    ⟨toHex M, K⟩

def computeProof (upper : String → String) (plugin user password : String) (salt : Bytes)
    (ephemeral : SrpEphemeral) (serverKeyHex : Bytes) : Except String SrpProof := do
  let B : Int ← (bigIntOfHex serverKeyHex).map Int.ofNat
  if B.tmod N = 0 then throw "Invalid SRP server key (B ≡ 0 mod N)"
  let userUpper := utf8 (upper user)
  let u := scramble H ephemeral.A B
  let k := multiplier H
  let x := privateKey H userUpper password salt
  let S := secret k u x ephemeral.a B
  proofOf H plugin userUpper salt ephemeral.A B S

end Proof

/-! The exponentiation -/

theorem tmod_of_nonneg {a : Int} (h : 0 ≤ a) (mod : Int) : a.tmod mod = a % mod :=
  Int.tmod_eq_emod_of_nonneg h

/-- A remainder that is made positive. -/
theorem tmod_adjust {mod : Int} (hmod : 0 < mod) (a : Int) :
    (if a.tmod mod < 0 then a.tmod mod + mod else a.tmod mod) = a % mod := by
  have hnonneg := Int.emod_nonneg a hmod.ne'
  have hlt := Int.emod_lt_of_pos a hmod
  have hdiff := @Int.tmod_eq_emod a mod
  split at hdiff
  · rw [if_neg (by omega)]
    omega
  · rw [if_pos (by omega)]
    omega

theorem modPowLoop_eq {mod : Int} (hmod : 1 < mod) (exp : Nat) {base result : Int}
    (hbase : 0 ≤ base) (hresult : 0 ≤ result) (hlt : result < mod) :
    modPowLoop mod base result exp = result * base ^ exp % mod := by
  induction exp using Nat.strong_induction_on generalizing base result with
  | _ exp ih =>
    rw [modPowLoop]
    by_cases hzero : exp = 0
    · rw [if_pos hzero, hzero, pow_zero, mul_one, Int.emod_eq_of_lt hresult hlt]
    · rw [if_neg hzero]
      have hsquare : (base * base).tmod mod = base * base % mod :=
        tmod_of_nonneg (Int.mul_nonneg hbase hbase) mod
      have hpos : 0 < mod := by omega
      have hnext : 0 ≤ base * base % mod := Int.emod_nonneg _ hpos.ne'
      rw [hsquare]
      have hmodEq : (base * base % mod) ^ (exp / 2) ≡ base ^ (2 * (exp / 2)) [ZMOD mod] := by
        rw [pow_mul, pow_two]
        exact (Int.mod_modEq _ _).pow _
      by_cases hodd : exp % 2 = 1
      · rw [if_pos hodd, tmod_of_nonneg (Int.mul_nonneg hresult hbase)]
        rw [ih (exp / 2) (by omega) hnext (Int.emod_nonneg _ hpos.ne') (Int.emod_lt_of_pos _ hpos)]
        have hexp : exp = 2 * (exp / 2) + 1 := by omega
        have hstep : result * base % mod * (base * base % mod) ^ (exp / 2) ≡
            result * base * base ^ (2 * (exp / 2)) [ZMOD mod] :=
          (Int.mod_modEq _ _).mul hmodEq
        have hpower : result * base * base ^ (2 * (exp / 2)) = result * base ^ exp := by
          conv_rhs => rw [hexp, pow_succ']
          rw [mul_assoc]
        rw [hpower] at hstep
        exact hstep
      · rw [if_neg hodd]
        rw [ih (exp / 2) (by omega) hnext hresult hlt]
        have hexp : 2 * (exp / 2) = exp := by omega
        rw [hexp] at hmodEq
        exact hmodEq.mul_left result

theorem modPow_eq {mod : Int} (hmod : 1 < mod) (base exp : Int) :
    modPow base exp mod = base ^ exp.toNat % mod := by
  have hpos : 0 < mod := by omega
  unfold modPow
  dsimp only
  rw [tmod_adjust hpos]
  rw [modPowLoop_eq hmod exp.toNat (Int.emod_nonneg _ hpos.ne') Int.one_nonneg hmod, one_mul]
  exact (Int.mod_modEq base mod).pow _


/-! The agreement -/

/-- `v`, the server's verifier. -/
def verifier (x : Nat) : Int := g ^ x

/-- The server's public key. -/
def serverKey (k : Nat) (v : Int) (b : Nat) : Int := (k * v + g ^ b) % N

/-- The secret that the server computes. -/
def serverSecret (A v : Int) (u b : Nat) : Int := (A * v ^ u) ^ b % N

theorem one_lt_N : 1 < N := by decide

/-- The secret of the client is the one of the server: `(B - k * g^x)^(a + u * x)` and
`(A * v^u)^b` are both `g^(b * (a + u * x))`. -/
theorem secrets_agree (a b k u x : Nat) :
    ((serverKey k (verifier x) b - (k * (g ^ x % N)) % N) % N) ^ (a + u * x) % N =
      serverSecret (g ^ a % N) (verifier x) u b := by
  have hbase : (serverKey k (verifier x) b - (k * (g ^ x % N)) % N) % N ≡ g ^ b [ZMOD N] := by
    have hkey : serverKey k (verifier x) b ≡ k * g ^ x + g ^ b [ZMOD N] := Int.mod_modEq _ _
    have hmask : (k * (g ^ x % N)) % N ≡ k * g ^ x [ZMOD N] :=
      (Int.mod_modEq _ _).trans ((Int.mod_modEq _ _).mul_left k)
    calc (serverKey k (verifier x) b - (k * (g ^ x % N)) % N) % N
        ≡ serverKey k (verifier x) b - (k * (g ^ x % N)) % N [ZMOD N] := Int.mod_modEq _ _
      _ ≡ k * g ^ x + g ^ b - k * g ^ x [ZMOD N] := hkey.sub hmask
      _ = g ^ b := by omega
  have hclient : ((serverKey k (verifier x) b - (k * (g ^ x % N)) % N) % N) ^ (a + u * x) ≡
      (g ^ b) ^ (a + u * x) [ZMOD N] := hbase.pow _
  have hserver : ((g ^ a % N) * verifier x ^ u) ^ b ≡ (g ^ a * (g ^ x) ^ u) ^ b [ZMOD N] :=
    ((Int.mod_modEq _ _).mul_right _).pow b
  have hpowers : (g ^ b) ^ (a + u * x) = (g ^ a * (g ^ x) ^ u) ^ b := by
    rw [← pow_mul, ← pow_mul, ← pow_add, ← pow_mul, Nat.mul_comm x u, Nat.mul_comm b]
  exact hclient.trans ((congrArg (· % N) hpowers).trans hserver.symm)

theorem secret_eq (a b k u x : Nat) (hexp : (a + u * x : Int) < N) :
    secret k u x a (serverKey k (verifier x) b) =
      serverSecret (modPow g a N) (verifier x) u b := by
  have hpos : 0 < N := by decide
  have hexponent : ((a : Int) + u * x).tmod N = ((a + u * x : Nat) : Int) := by
    have hnonneg : (0 : Int) ≤ a + u * x := by
      have hproduct : (0 : Int) ≤ u * x := Int.mul_nonneg (Int.natCast_nonneg u) (Int.natCast_nonneg x)
      omega
    rw [tmod_of_nonneg hnonneg, Int.emod_eq_of_lt hnonneg hexp]
    push_cast
    rfl
  have hgx : modPow g x N = g ^ x % N := modPow_eq one_lt_N g x
  have hmask : ((k : Int) * (g ^ x % N)).tmod N = (k * (g ^ x % N)) % N :=
    tmod_of_nonneg (Int.mul_nonneg (Int.natCast_nonneg k) (Int.emod_nonneg _ hpos.ne')) N
  have hA : modPow g a N = g ^ a % N := modPow_eq one_lt_N g a
  unfold secret
  dsimp only
  rw [hexponent, hgx, hmask, tmod_adjust hpos, modPow_eq one_lt_N, Int.toNat_natCast, hA]
  exact secrets_agree a b k u x

/-- The keys that a client makes are a private exponent and its power. -/
theorem generateEphemeral_keys {seed : Bytes} {ephemeral : SrpEphemeral}
    (h : generateEphemeral seed = .ok ephemeral) :
    ∃ a : Nat, ephemeral.a = a ∧ ephemeral.A = modPow g a N := by
  unfold generateEphemeral at h
  dsimp only at h
  split at h
  · obtain rfl := Except.ok.inj h
    have hnonneg : 0 ≤ (bufferToBigInt seed : Int).tmod N := by
      rw [tmod_of_nonneg (Int.natCast_nonneg _)]
      exact Int.emod_nonneg _ (by decide)
    obtain ⟨a, ha⟩ := Int.eq_ofNat_of_zero_le hnonneg
    exact ⟨a, ha, congrArg (modPow g · N) ha⟩
  · cases h

/-- Client and server have the same secret, and from it the same session key and proof, unless the
server's key is one that the client refuses. -/
theorem srp_agreement (H : Hashes) (upper : String → String) (plugin user password : String)
    (salt : Bytes) (a b : Nat) (publicHex : String) (serverKeyHex : Bytes) :
    (∀ base exp : Int, 0 ≤ exp → modPow base exp N = base ^ exp.toNat % N) ∧
    let userUpper := utf8 (upper user)
    let x := privateKey H userUpper password salt
    let A := modPow g a N
    let B := serverKey (multiplier H) (verifier x) b
    let u := scramble H A B
    bigIntOfHex serverKeyHex = .ok B.toNat → (a + u * x : Int) < N →
      secret (multiplier H) u x a B = serverSecret A (verifier x) u b ∧
      computeProof H upper plugin user password salt ⟨a, A, publicHex⟩ serverKeyHex =
        if B = 0 then .error "Invalid SRP server key (B ≡ 0 mod N)"
        else proofOf H plugin userUpper salt A B (serverSecret A (verifier x) u b) := by
  refine ⟨fun base exp _ => modPow_eq one_lt_N base exp, ?_⟩
  intro userUpper x A B u hkey hexp
  have hsecret := secret_eq a b (multiplier H) u x hexp
  refine ⟨hsecret, ?_⟩
  have hB : 0 ≤ B ∧ B < N :=
    ⟨Int.emod_nonneg _ (by decide), Int.emod_lt_of_pos _ (by decide)⟩
  have hcast : Int.ofNat B.toNat = B := Int.toNat_of_nonneg hB.1
  have hrest : B.tmod N = B := by
    rw [tmod_of_nonneg hB.1, Int.emod_eq_of_lt hB.1 hB.2]
  unfold computeProof
  rw [hkey]
  simp only [Except.map, bind, Except.bind, hcast, hrest]
  split
  · rfl
  · exact congrArg (proofOf H plugin userUpper salt A B) hsecret

/-- One byte, by the length of what is hashed. -/
def lengthHash (bytes : Bytes) : Bytes := [UInt8.ofNat (bytes.length % 5 + 2)]

/-- With the multiplier 3, the private key 6 and the scramble 4: the server's key is 200. -/
theorem srp_agreement_lengths :
    computeProof ⟨lengthHash, lengthHash⟩ id "Srp256" "SYSDBA" "masterkey" [1, 2, 3]
      ⟨5, modPow g 5 N, "20"⟩ [99, 56] =
        proofOf ⟨lengthHash, lengthHash⟩ "Srp256" (utf8 "SYSDBA") [1, 2, 3] (modPow g 5 N) 200
          (serverSecret (modPow g 5 N) (2 ^ 6) 4 3) := by
  have hmultiplier : multiplier ⟨lengthHash, lengthHash⟩ = 3 := by decide +kernel
  have hprivate : privateKey ⟨lengthHash, lengthHash⟩ (utf8 (id "SYSDBA")) "masterkey" [1, 2, 3] = 6 := by
    decide +kernel
  have hkey : serverKey 3 (verifier 6) 3 = 200 := by decide +kernel
  have hscramble : scramble ⟨lengthHash, lengthHash⟩ (modPow g (5 : Nat) N) 200 = 4 := by decide +kernel
  have hagree := (srp_agreement ⟨lengthHash, lengthHash⟩ id "Srp256" "SYSDBA" "masterkey" [1, 2, 3] 5 3
    "20" [99, 56]).2
  dsimp only at hagree
  rw [hmultiplier, hprivate, hkey, hscramble] at hagree
  exact (hagree rfl (by decide)).2

end FastFirebird.Srp
