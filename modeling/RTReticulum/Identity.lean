import RTReticulum.Cryptography

/-! `identity.cpp`: keys, hashes, and encryption to an identity. -/
set_option autoImplicit false

namespace RNS

def fullHash (P : Platform) (data : Bytes) : Bytes := P.sha256 data

def truncatedHash (P : Platform) (data : Bytes) : Bytes :=
  Bytes.left (fullHash P data) Reticulum.truncatedHashBytes

@[simp] theorem truncatedHash_length (P : Platform) (d : Bytes) :
    (truncatedHash P d).length = 16 := by
  simp [truncatedHash,fullHash,Reticulum.truncatedHashBytes]

/-- `Identity::Object`. A public key is its bytes; `none` stands for a null pointer.
A handle, which may itself be null, is an `Option Identity`. -/
structure Identity where
  prv : Option X25519PrivateKey
  prvBytes : Bytes
  sigPrv : Option Ed25519PrivateKey
  sigPrvBytes : Bytes
  pub : Option Bytes
  pubBytes : Bytes
  sigPub : Option Bytes
  sigPubBytes : Bytes
  hash : Bytes
  appData : Bytes

namespace Identity
variable (P : Platform)

def blank : Identity := ⟨none,[],none,[],none,[],none,[],[],[]⟩

def getPrivateKey (id : Identity) : Bytes := id.prvBytes ++ id.sigPrvBytes
def getPublicKey (id : Identity) : Bytes := id.pubBytes ++ id.sigPubBytes
def hexhash (id : Identity) : Bytes := Bytes.toHex id.hash

def updateHashes (id : Identity) : Identity :=
  { id with hash := truncatedHash P id.getPublicKey }

def derivePublic (prv : X25519PrivateKey) (sigPrv : Ed25519PrivateKey) (id : Identity) :
    Identity :=
  updateHashes P { id with
    pub := some (prv.publicBytes P), pubBytes := prv.publicBytes P
    sigPub := some (sigPrv.publicBytes P), sigPubBytes := sigPrv.publicBytes P }

def createKeys (id : Identity) (r : Rng) : Identity × Rng :=
  let (prv,r) := X25519PrivateKey.generate r
  let (sigPrv,r) := Ed25519PrivateKey.generate r
  (derivePublic P prv sigPrv { id with
    prv := some prv, prvBytes := prv.privateBytes
    sigPrv := some sigPrv, sigPrvBytes := sigPrv.seed },r)

/-- An exception leaves behind what was assigned before it. -/
def loadPrivateKey (id : Identity) (prvBytes : Bytes) (r : Rng) : Bool × Identity × Rng :=
  let id := { id with prvBytes := Bytes.left prvBytes 32 }
  match X25519PrivateKey.ofBytes id.prvBytes r with
  | .error _ => (false,id,r)
  | .ok (prv,r) =>
    let id := { id with prv := some prv, sigPrvBytes := Bytes.midFrom prvBytes 32 }
    match Ed25519PrivateKey.ofBytes id.sigPrvBytes r with
    | .error _ => (false,id,r)
    | .ok (sigPrv,r) => (true,derivePublic P prv sigPrv { id with sigPrv := some sigPrv },r)

/-- Neither key constructor checks a length, so nothing here throws. -/
def loadPublicKey (id : Identity) (pubBytes : Bytes) : Identity :=
  updateHashes P { id with
    pubBytes := Bytes.left pubBytes 32, sigPubBytes := Bytes.midFrom pubBytes 32
    pub := some (Bytes.left pubBytes 32), sigPub := some (Bytes.midFrom pubBytes 32) }

def getSalt (id : Identity) : Bytes := id.hash

def deriveToken (key : X25519PrivateKey) (peer salt : Bytes) : Except Fault Token := do
  let sharedKey ← key.exchange P peer
  let derivedKey ← hkdf P derivedKeyLength sharedKey salt []
  Token.ofKey derivedKey

def encrypt (id : Identity) (plaintext : Bytes) (r : Rng) : Except Fault (Bytes × Rng) :=
  match id.pub with
  | none => .error (.runtimeError "Encryption failed: no public key")
  | some _ => do
    let ephemeralKey := (X25519PrivateKey.generate r).1
    let token ← deriveToken P ephemeralKey id.pubBytes id.getSalt
    let (c,r) ← token.encrypt P plaintext (X25519PrivateKey.generate r).2
    return (ephemeralKey.publicBytes P ++ c,r)

/-- `KEYSIZE / 8 / 2` is 32. Whatever goes wrong once there is a private key is caught, and
reported as empty. -/
def decrypt (id : Identity) (ciphertextToken : Bytes) : Except Fault Bytes :=
  match id.prv with
  | none => .error (.runtimeError "Decryption failed: no private key")
  | some prv =>
    if ciphertextToken.length ≤ 32 then .ok []
    else
      let attempt : Except Fault Bytes := do
        let token ← deriveToken P prv (Bytes.left ciphertextToken (32)) id.getSalt
        token.decrypt P (Bytes.midFrom ciphertextToken (32))
      match attempt with
      | .ok plaintext => .ok plaintext
      | .error _ => .ok []

def sign (id : Identity) (message : Bytes) : Except Fault Bytes :=
  match id.sigPrv with
  | none => .error (.runtimeError "Signing failed: no signing key")
  | some k => .ok (k.sign P message)

def validate (id : Identity) (signature message : Bytes) : Bool :=
  match id.sigPub with
  | none => false
  | some key => ed25519Verify P key signature message

structure Keyed (id : Identity) : Prop where
  prv : ∃ k, id.prv = some k ∧ id.pubBytes = k.publicBytes P
  sigPrv : ∃ k, id.sigPrv = some k ∧ id.sigPubBytes = k.publicBytes P
  pub : id.pub = some id.pubBytes
  sigPub : id.sigPub = some id.sigPubBytes
  hash : id.hash = truncatedHash P id.getPublicKey

structure Holds (id : Identity) (pk : Bytes) : Prop where
  pub : id.pub = some (Bytes.left pk 32)
  pubBytes : id.pubBytes = Bytes.left pk 32
  sigPub : id.sigPub = some (Bytes.midFrom pk 32)
  sigPubBytes : id.sigPubBytes = Bytes.midFrom pk 32
  hash : id.hash = truncatedHash P pk

variable {P}

theorem Keyed.pubBytes_length {id : Identity} (h : id.Keyed P) : id.pubBytes.length = 32 := by
  obtain ⟨k,-,hk⟩ := h.prv
  simp [hk]

theorem Keyed.sigPubBytes_length {id : Identity} (h : id.Keyed P) :
    id.sigPubBytes.length = 32 := by
  obtain ⟨k,-,hk⟩ := h.sigPrv
  simp [hk]

theorem Keyed.getPublicKey_length {id : Identity} (h : id.Keyed P) :
    id.getPublicKey.length = 64 := by
  simp [getPublicKey,h.pubBytes_length,h.sigPubBytes_length]

theorem createKeys_keyed (id : Identity) (r : Rng) : (createKeys P id r).1.Keyed P :=
  ⟨⟨_,rfl,rfl⟩,⟨_,rfl,rfl⟩,rfl,rfl,rfl⟩

theorem loadPrivateKey_keyed {id id' : Identity} {b : Bytes} {r r' : Rng}
    (h : loadPrivateKey P id b r = (true,id',r')) : id'.Keyed P := by
  simp only [loadPrivateKey] at h
  cases hx : X25519PrivateKey.ofBytes (Bytes.left b 32) r with
  | error e => simp [hx] at h
  | ok x =>
    cases he : Ed25519PrivateKey.ofBytes (Bytes.midFrom b 32) x.2 with
    | error e => simp [hx,he] at h
    | ok y =>
      simp only [hx,he,Prod.mk.injEq,true_and] at h
      obtain ⟨rfl,-⟩ := h
      exact ⟨⟨_,rfl,rfl⟩,⟨_,rfl,rfl⟩,rfl,rfl,rfl⟩

@[simp] theorem loadPublicKey_hash (id : Identity) (pk : Bytes) :
    (loadPublicKey P id pk).hash = truncatedHash P pk := by
  simp [loadPublicKey,updateHashes,getPublicKey]

theorem loadPublicKey_holds (id : Identity) (pk : Bytes) : (loadPublicKey P id pk).Holds P pk :=
  ⟨rfl,rfl,rfl,rfl,loadPublicKey_hash id pk⟩

theorem Keyed.holds {id other : Identity} (h : id.Keyed P)
    (ho : other.Holds P id.getPublicKey) :
    other.pubBytes = id.pubBytes ∧ other.sigPub = some id.sigPubBytes ∧
      other.sigPubBytes = id.sigPubBytes ∧ other.hash = id.hash := by
  have hright : Bytes.midFrom id.getPublicKey 32 = id.sigPubBytes :=
    List.drop_left' h.pubBytes_length
  refine ⟨?_,ho.sigPub.trans (congrArg some hright),ho.sigPubBytes.trans hright,
    ho.hash.trans h.hash.symm⟩
  rw [ho.pubBytes]
  exact List.take_left' h.pubBytes_length

theorem sign_keyed {id : Identity} {k : Ed25519PrivateKey} (h : id.sigPrv = some k)
    (m : Bytes) : id.sign P m = .ok (k.sign P m) := by
  simp [sign,h]

theorem deriveToken_ok (key : X25519PrivateKey) {peer : Bytes} (salt : Bytes)
    (h : peer.length = 32) :
    deriveToken P key peer salt = .ok (Token.ofKey64
      (P.hkdfSha256 64 (P.x25519 key.privateBytes peer) salt []) (by simp)) := by
  have hne : P.x25519 key.privateBytes peer ≠ [] := by
    intro hnil
    simpa [hnil] using P.x25519_length key.privateBytes peer
  have h64 : (64 : Nat) ≠ 0 := by decide
  simp [deriveToken,X25519PrivateKey.exchange_ok h,hkdf_ok h64 hne,derivedKeyLength,
    Token.ofKey_64]

theorem encrypt_ok {id : Identity} (hpub : id.pub.isSome) (hlen : id.pubBytes.length = 32)
    (plaintext : Bytes) (r : Rng) : ∃ c r', id.encrypt P plaintext r = .ok (c,r') := by
  obtain ⟨k,hk⟩ := Option.isSome_iff_exists.mp hpub
  simp [encrypt,hk,deriveToken_ok _ _ hlen,Token.encrypt_eq]

theorem encrypt_length {id : Identity} {plaintext c : Bytes} {r r' : Rng}
    (h : id.encrypt P plaintext r = .ok (c,r')) : c.length = 80+16*(plaintext.length/16+1) := by
  unfold encrypt at h
  split at h
  · cases h
  obtain ⟨token,-,h⟩ := bind_eq_ok.mp h
  obtain ⟨⟨tok,r₁⟩,henc,h⟩ := bind_eq_ok.mp h
  cases h
  rw [List.length_append,X25519PrivateKey.publicBytes_length,Token.encrypt_length henc]
  omega

/-- `decrypt` throws only for want of a private key. -/
theorem decrypt_isOk {id : Identity} (h : id.prv.isSome) (c : Bytes) :
    ∃ pt, id.decrypt P c = .ok pt := by
  obtain ⟨k,hk⟩ := Option.isSome_iff_exists.mp h
  unfold decrypt
  simp only [hk]
  split
  · exact ⟨_,rfl⟩
  · split <;> exact ⟨_,rfl⟩

theorem decrypt_opens {id : Identity} {k : X25519PrivateKey} (hk : id.prv = some k)
    {c pt : Bytes} (h : id.decrypt P c = .ok pt) (hne : pt ≠ []) :
    32 < c.length ∧ ∃ token, deriveToken P k (Bytes.left c 32) id.hash = .ok token ∧
      token.Opens P (Bytes.midFrom c 32) pt := by
  have hempty : (Except.ok [] : Except Fault Bytes) ≠ .ok pt := by
    simpa using hne.symm
  by_cases hlong : c.length ≤ 32
  · simp [decrypt,hk,hlong] at h
    exact absurd h hne
  refine ⟨by omega,?_⟩
  simp only [decrypt,hk,if_neg hlong] at h
  split at h
  · rename_i plaintext hat
    cases h
    obtain ⟨token,ht,hd⟩ := bind_eq_ok.mp hat
    exact ⟨token,ht,Token.decrypt_iff.mp hd⟩
  · exact absurd h hempty

theorem decrypt_encrypt (hx : P.ExchangeCommutes) (hc : P.CbcInverts) {id sender : Identity}
    (hid : id.Keyed P) (hpub : sender.pub.isSome) (hkey : sender.pubBytes = id.pubBytes)
    (hhash : sender.hash = id.hash) {pt c : Bytes} {r r' : Rng}
    (h : sender.encrypt P pt r = .ok (c,r')) : id.decrypt P c = .ok pt := by
  obtain ⟨_,hsome⟩ := Option.isSome_iff_exists.mp hpub
  obtain ⟨k,hk,hpk⟩ := hid.prv
  unfold encrypt at h
  simp only [hsome,hkey,hhash,getSalt,deriveToken_ok _ _ hid.pubBytes_length,ok_bind] at h
  obtain ⟨⟨tok,r₂⟩,henc,hret⟩ := bind_eq_ok.mp h
  simp only [pure_eq_ok,Except.ok.injEq,Prod.mk.injEq] at hret
  obtain ⟨rfl,-⟩ := hret
  generalize hg : (X25519PrivateKey.generate r).1 = eph at henc ⊢
  -- Both ends reach the same shared secret, so the same token.
  have hshared : P.x25519 eph.privateBytes id.pubBytes =
      P.x25519 k.privateBytes (eph.publicBytes P) := by
    rw [hpk]
    exact hx _ _ eph.privateBytes_length k.privateBytes_length
  have hopen := Token.opens_encrypt hc henc
  have hlen := hopen.long
  have hlong : ¬ (eph.publicBytes P ++ tok).length ≤ 32 := by
    rw [List.length_append,X25519PrivateKey.publicBytes_length]; omega
  have hleft : Bytes.left (eph.publicBytes P ++ tok) 32 = eph.publicBytes P :=
    List.take_left' (by simp)
  have hrest : Bytes.midFrom (eph.publicBytes P ++ tok) 32 = tok :=
    List.drop_left' (by simp)
  simp only [decrypt,hk,if_neg hlong,getSalt,hleft,hrest,
    deriveToken_ok k id.hash (X25519PrivateKey.publicBytes_length P eph)]
  simp only [hshared] at hopen
  simp only [ok_bind,Token.decrypt_iff.mpr hopen]

end Identity

end RNS
