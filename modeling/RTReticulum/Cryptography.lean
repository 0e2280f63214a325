import RTReticulum.Types

/-! The wrappers of `cryptography/` around mbedTLS, Monocypher and the HAL. The
primitives themselves are a parameter; what is checked before they are called is not. -/
set_option autoImplicit false

namespace RNS

/-- The primitives the code links against, and the width of `size_t`. Each writes a
buffer of a fixed length, whatever it is given. -/
structure Platform where
  sizeBits : Nat
  sha256 : Bytes → Bytes
  /-- Key, message. -/
  hmacSha256 : Bytes → Bytes → Bytes
  /-- Length, input material, salt, context. -/
  hkdfSha256 : Nat → Bytes → Bytes → Bytes → Bytes
  /-- Key, IV, block-aligned input. -/
  aesCbcEncrypt : Bytes → Bytes → Bytes → Bytes
  aesCbcDecrypt : Bytes → Bytes → Bytes → Bytes
  /-- Secret scalar, point. -/
  x25519 : Bytes → Bytes → Bytes
  /-- Seed. -/
  ed25519PublicKey : Bytes → Bytes
  /-- Seed, message. -/
  ed25519Sign : Bytes → Bytes → Bytes
  /-- Signature, public key, message. -/
  ed25519Check : Bytes → Bytes → Bytes → Bool
  sha256_length : ∀ d, (sha256 d).length = 32
  hmacSha256_length : ∀ k m, (hmacSha256 k m).length = 32
  hkdfSha256_length : ∀ n d s c, (hkdfSha256 n d s c).length = n
  aesCbcEncrypt_length : ∀ k iv d, (aesCbcEncrypt k iv d).length = d.length
  aesCbcDecrypt_length : ∀ k iv d, (aesCbcDecrypt k iv d).length = d.length
  x25519_length : ∀ s p, (x25519 s p).length = 32
  ed25519PublicKey_length : ∀ s, (ed25519PublicKey s).length = 32
  ed25519Sign_length : ∀ s m, (ed25519Sign s m).length = 64

attribute [simp] Platform.sha256_length Platform.hmacSha256_length Platform.hkdfSha256_length
  Platform.aesCbcEncrypt_length Platform.aesCbcDecrypt_length Platform.x25519_length
  Platform.ed25519PublicKey_length Platform.ed25519Sign_length

namespace Platform
variable (P : Platform)

/-- `crypto_x25519_public_key`: the base point of Curve25519 is 9. -/
def x25519PublicKey (secret : Bytes) : Bytes := P.x25519 secret (9 :: List.replicate 31 0)

@[simp] theorem x25519PublicKey_length (s : Bytes) : (P.x25519PublicKey s).length = 32 :=
  P.x25519_length _ _

/-- Diffie-Hellman: both ends of an exchange get the same secret. -/
def ExchangeCommutes : Prop := ∀ a b : Bytes, a.length = 32 → b.length = 32 →
  P.x25519 a (P.x25519PublicKey b) = P.x25519 b (P.x25519PublicKey a)

/-- Ed25519 accepts the signatures it makes. -/
def VerifiesOwn : Prop := ∀ seed m : Bytes, seed.length = 32 →
  P.ed25519Check (P.ed25519Sign seed m) (P.ed25519PublicKey seed) m = true

/-- CBC decryption inverts encryption on whole blocks. -/
def CbcInverts : Prop := ∀ k iv d : Bytes, k.length = 16 ∨ k.length = 32 → iv.length = 16 →
  d.length % 16 = 0 → P.aesCbcDecrypt k iv (P.aesCbcEncrypt k iv d) = d

end Platform

/-- The HAL entropy source, read draw by draw; it does not fail. -/
structure Entropy where
  bytes : Nat → Nat → Bytes
  bytes_length : ∀ i len, (bytes i len).length = len

attribute [simp] Entropy.bytes_length

structure Rng where
  hal : Entropy
  draws : Nat

def Rng.random (r : Rng) (len : Nat) : Bytes × Rng :=
  (r.hal.bytes r.draws len, { r with draws := r.draws+1 })

@[simp] theorem Rng.random_length (r : Rng) (len : Nat) : (r.random len).1.length = len := by
  simp [random]

structure X25519PrivateKey where
  privateBytes : Bytes
  privateBytes_length : privateBytes.length = 32

namespace X25519PrivateKey

/-- The constructor: an empty key asks for a random one. -/
def ofBytes (sk : Bytes) (r : Rng) : Except Fault (X25519PrivateKey × Rng) :=
  if sk.isEmpty then
    .ok (⟨(r.random 32).1,r.random_length 32⟩,(r.random 32).2)
  else if h : sk.length = 32 then .ok (⟨sk,h⟩,r)
  else .error (.invalidArgument "X25519 private key must be 32 bytes")

def generate (r : Rng) : X25519PrivateKey × Rng :=
  (⟨(r.random 32).1,r.random_length 32⟩,(r.random 32).2)

def publicBytes (P : Platform) (k : X25519PrivateKey) : Bytes := P.x25519PublicKey k.privateBytes

@[simp] theorem publicBytes_length (P : Platform) (k : X25519PrivateKey) :
    (k.publicBytes P).length = 32 := by simp [publicBytes]

def exchange (P : Platform) (k : X25519PrivateKey) (peer : Bytes) : Except Fault Bytes :=
  if peer.length = 32 then .ok (P.x25519 k.privateBytes peer)
  else .error (.invalidArgument "X25519 peer key must be 32 bytes")

theorem exchange_ok {P : Platform} {k : X25519PrivateKey} {peer : Bytes}
    (h : peer.length = 32) : k.exchange P peer = .ok (P.x25519 k.privateBytes peer) := by
  simp [exchange,h]

end X25519PrivateKey

structure Ed25519PrivateKey where
  seed : Bytes
  seed_length : seed.length = 32

namespace Ed25519PrivateKey

def ofBytes (seed : Bytes) (r : Rng) : Except Fault (Ed25519PrivateKey × Rng) :=
  if seed.isEmpty then
    .ok (⟨(r.random 32).1,r.random_length 32⟩,(r.random 32).2)
  else if h : seed.length = 32 then .ok (⟨seed,h⟩,r)
  else .error (.invalidArgument "Ed25519 seed must be 32 bytes")

def generate (r : Rng) : Ed25519PrivateKey × Rng :=
  (⟨(r.random 32).1,r.random_length 32⟩,(r.random 32).2)

def publicBytes (P : Platform) (k : Ed25519PrivateKey) : Bytes := P.ed25519PublicKey k.seed

@[simp] theorem publicBytes_length (P : Platform) (k : Ed25519PrivateKey) :
    (k.publicBytes P).length = 32 := by simp [publicBytes]

def sign (P : Platform) (k : Ed25519PrivateKey) (message : Bytes) : Bytes :=
  P.ed25519Sign k.seed message

@[simp] theorem sign_length (P : Platform) (k : Ed25519PrivateKey) (m : Bytes) :
    (k.sign P m).length = 64 := by simp [sign]

end Ed25519PrivateKey

/-- `Ed25519PublicKey::verify`: wrong lengths are refused before the check. -/
def ed25519Verify (P : Platform) (key signature message : Bytes) : Bool :=
  if signature.length ≠ 64 ∨ key.length ≠ 32 then false
  else P.ed25519Check signature key message

theorem ed25519Verify_sign {P : Platform} (hP : P.VerifiesOwn) (k : Ed25519PrivateKey)
    (m : Bytes) : ed25519Verify P (k.publicBytes P) (k.sign P m) m = true := by
  simp only [ed25519Verify,Ed25519PrivateKey.sign_length,Ed25519PrivateKey.publicBytes_length]
  exact hP k.seed m k.seed_length

def hkdf (P : Platform) (length : Nat) (deriveFrom salt context : Bytes) : Except Fault Bytes :=
  if length = 0 then .error (.invalidArgument "Invalid output key length")
  else if deriveFrom.isEmpty then
    .error (.invalidArgument "Cannot derive key from empty input material")
  else .ok (P.hkdfSha256 length deriveFrom salt context)

theorem hkdf_ok {P : Platform} {n : Nat} {d s c : Bytes} (hn : n ≠ 0) (hd : d ≠ []) :
    hkdf P n d s c = .ok (P.hkdfSha256 n d s c) := by
  simp [hkdf,hn,hd]

/-- The argument checks of `aes_cbc`, then the cipher `f`. -/
def aesCbc (f : Bytes → Bytes → Bytes → Bytes) (keyLength : Nat) (input key iv : Bytes) :
    Except Fault Bytes :=
  if input.length % 16 ≠ 0 then .error (.invalidArgument "AES-CBC: input not block-aligned")
  else if iv.length ≠ 16 then .error (.invalidArgument "AES-CBC: IV must be 16 bytes")
  else if key.length ≠ keyLength then .error (.invalidArgument "AES-CBC: key size mismatch")
  else .ok (f key iv input)

theorem aesCbc_ok {f : Bytes → Bytes → Bytes → Bytes} {n : Nat} {d k iv : Bytes}
    (hd : d.length % 16 = 0) (hiv : iv.length = 16) (hk : k.length = n) :
    aesCbc f n d k iv = .ok (f k iv d) := by
  simp [aesCbc,hd,hiv,hk]

namespace Pkcs7

abbrev blockSize : Nat := 16

def pad (data : Bytes) (bs : Nat) : Bytes :=
  let padlen := bs - data.length % bs
  data ++ List.replicate padlen (UInt8.ofNat padlen)

def unpad (data : Bytes) (bs : Nat) : Except Fault Bytes :=
  match data.getLast? with
  | none => .error (.runtimeError "Cannot unpad empty data")
  | some last =>
    let padlen := last.toNat
    if padlen = 0 ∨ padlen > bs then
      .error (.runtimeError
        ("Cannot unpad, invalid padding length of " ++ toString padlen ++ " bytes"))
    -- `len - padlen` wraps, and no vector is that long
    else if padlen > data.length then .error (.lengthError "vector::_M_default_append")
    else .ok (Bytes.resize data (data.length - padlen))

theorem pad_length (d : Bytes) {bs : Nat} (h : 0 < bs) :
    (pad d bs).length = (d.length/bs+1)*bs := by
  have hm := Nat.mod_lt d.length h
  have hd := Nat.div_add_mod' d.length bs
  simp only [pad,List.length_append,List.length_replicate,Nat.add_mul,Nat.one_mul]
  omega

theorem getLast?_pad (d : Bytes) {bs : Nat} (h : 0 < bs) :
    (pad d bs).getLast? = some (UInt8.ofNat (bs - d.length % bs)) := by
  have hm := Nat.mod_lt d.length h
  obtain ⟨k,hk⟩ : ∃ k, bs - d.length % bs = k+1 := ⟨bs - d.length % bs - 1,by omega⟩
  simp [pad,hk,List.replicate_succ',← List.append_assoc]

theorem unpad_pad (d : Bytes) {bs : Nat} (h : 0 < bs) (hb : bs ≤ 255) :
    unpad (pad d bs) bs = .ok d := by
  have hm := Nat.mod_lt d.length h
  have hnat : (UInt8.ofNat (bs - d.length % bs)).toNat = bs - d.length % bs := by
    simp only [UInt8.toNat_ofNat']; omega
  have hlen : (pad d bs).length = d.length+(bs - d.length % bs) := by simp [pad]
  have hbs : ¬ (bs - d.length % bs = 0 ∨ bs - d.length % bs > bs) := by omega
  simp only [unpad,getLast?_pad d h,hnat,hbs,if_false,hlen,Nat.add_sub_cancel]
  rw [Bytes.resize_of_le (by omega)]
  simp [pad]

theorem unpad_eq (bs : Nat) {data : Bytes} {last : UInt8} (h : data.getLast? = some last) :
    (∃ what, unpad data bs = .error (.runtimeError what)) ∨
      1 ≤ last.toNat ∧ last.toNat ≤ bs ∧ unpad data bs =
        if last.toNat > data.length then .error (.lengthError "vector::_M_default_append")
        else .ok (data.take (data.length-last.toNat)) := by
  simp only [unpad,h]
  split
  · exact .inl ⟨_,rfl⟩
  · refine .inr ⟨by omega,by omega,?_⟩
    rw [Bytes.resize_of_le (by omega)]

theorem unpad_ok {data d : Bytes} {bs : Nat} (h : unpad data bs = .ok d) :
    data ≠ [] ∧ ∃ k, 1 ≤ k ∧ k ≤ bs ∧ d = data.take (data.length-k) := by
  have hne : data ≠ [] := by
    rintro rfl
    cases h
  obtain ⟨what,herr⟩ | ⟨h1,h2,heq⟩ := unpad_eq bs (List.getLast?_eq_some_getLast hne)
  · rw [herr] at h
    cases h
  · rw [heq] at h
    split at h
    · cases h
    · cases h
      exact ⟨hne,_,h1,h2,rfl⟩

/-- Whatever the last byte of whole blocks is, the subtraction does not wrap. -/
theorem unpad_blocks {data : Bytes} {bs : Nat} (hne : data ≠ []) (hbs : bs ∣ data.length) :
    (∃ what, unpad data bs = .error (.runtimeError what)) ∨
      ∃ k, 1 ≤ k ∧ k ≤ bs ∧ k ≤ data.length ∧ unpad data bs = .ok (data.take (data.length-k)) := by
  have hlen : bs ≤ data.length := Nat.le_of_dvd (List.length_pos_iff.mpr hne) hbs
  obtain herr | ⟨h1,h2,heq⟩ := unpad_eq bs (List.getLast?_eq_some_getLast hne)
  · exact .inl herr
  · rw [if_neg (by omega)] at heq
    exact .inr ⟨_,h1,h2,h2.trans hlen,heq⟩

/-- Padding fills up to the next whole block, and is undone. What is unpadded loses a byte to a
block at its end, or is refused for its last byte. -/
theorem pkcs7_blocks {bs : Nat} (h : 1 ≤ bs) (hb : bs ≤ 255) :
    (∀ d, d <+: pad d bs ∧ IsLeast {n | bs ∣ n ∧ d.length < n} (pad d bs).length ∧
      unpad (pad d bs) bs = .ok d) ∧
    ∀ data : Bytes, data ≠ [] → bs ∣ data.length →
      (∃ what, unpad data bs = .error (.runtimeError what)) ∨
        ∃ d k, unpad data bs = .ok d ∧ d <+: data ∧ 1 ≤ k ∧ k ≤ bs ∧ d.length+k = data.length := by
  refine ⟨fun d => ⟨List.prefix_append _ _,⟨⟨?_,?_⟩,fun n hn => ?_⟩,unpad_pad d h hb⟩,
    fun data hne hbs => ?_⟩
  · rw [pad_length d h]
    exact Nat.dvd_mul_left _ _
  · rw [pad_length d h]
    exact Nat.lt_mul_of_div_lt (Nat.lt_succ_self _) h
  · obtain ⟨⟨q,rfl⟩,hlt⟩ := hn
    rw [pad_length d h,Nat.mul_comm bs q]
    exact Nat.mul_le_mul_right bs ((Nat.div_lt_iff_lt_mul h).mpr (Nat.mul_comm bs q ▸ hlt))
  · obtain herr | ⟨k,h1,h2,h3,heq⟩ := unpad_blocks hne hbs
    · exact .inl herr
    · exact .inr ⟨_,k,heq,List.take_prefix _ _,h1,h2,by rw [List.length_take]; omega⟩

/-- An exact multiple gets a whole block; a last byte of 3 is refused for blocks of 2. -/
theorem pkcs7_blocks_two : unpad (pad [7,8] 2) 2 = .ok [7,8] ∧ [7,8] <+: pad [7,8] 2 ∧
    ∃ what, unpad [1,1,1,3] 2 = .error (.runtimeError what) := by
  have h := @pkcs7_blocks 2 (by decide) (by decide)
  refine ⟨(h.1 [7,8]).2.2,(h.1 [7,8]).1,?_⟩
  obtain herr | ⟨d,k,hd,-⟩ := h.2 [1,1,1,3] (by decide) (by decide)
  · exact herr
  · simp [unpad] at hd

end Pkcs7

inductive TokenMode where
  | aes128Cbc | aes256Cbc
  deriving DecidableEq, Repr

def TokenMode.half : TokenMode → Nat
  | .aes128Cbc => 16
  | .aes256Cbc => 32

/-- A `Token` is only built from a key of 32 or 64 bytes, split in two halves. -/
structure Token where
  mode : TokenMode
  signingKey : Bytes
  encryptionKey : Bytes
  signingKey_length : signingKey.length = mode.half
  encryptionKey_length : encryptionKey.length = mode.half

namespace Token

/-- The constructor with the default mode `MODE_AES`, the only one the code uses. -/
def ofKey (key : Bytes) : Except Fault Token :=
  if key.isEmpty then .error (.invalidArgument "Token key cannot be empty")
  else if h : key.length = 32 then
    .ok ⟨.aes128Cbc,Bytes.left key 16,Bytes.midFrom key 16,
      by simp [h,TokenMode.half],by simp [h,TokenMode.half]⟩
  else if h : key.length = 64 then
    .ok ⟨.aes256Cbc,Bytes.left key 32,Bytes.midFrom key 32,
      by simp [h,TokenMode.half],by simp [h,TokenMode.half]⟩
  else .error (.invalidArgument
    ("Token key must be 256 or 512 bits, not " ++ toString (key.length*8)))

def ofKey64 (key : Bytes) (h : key.length = 64) : Token :=
  ⟨.aes256Cbc,Bytes.left key 32,Bytes.midFrom key 32,
    by simp [h,TokenMode.half],by simp [h,TokenMode.half]⟩

theorem ofKey_64 {key : Bytes} (h : key.length = 64) : ofKey key = .ok (ofKey64 key h) := by
  have hne : key ≠ [] := by rintro rfl; cases h
  simp [ofKey,ofKey64,hne,h]

def verifyHmac (P : Platform) (t : Token) (token : Bytes) : Except Fault Bool :=
  if token.length ≤ 32 then
    .error (.invalidArgument
      ("Cannot verify HMAC on token of only " ++ toString token.length ++ " bytes"))
  else
    .ok (Bytes.right token 32 = P.hmacSha256 t.signingKey (Bytes.left token (token.length-32)))

def encrypt (P : Platform) (t : Token) (data : Bytes) (r : Rng) : Except Fault (Bytes × Rng) := do
  let iv := (r.random 16).1
  let padded := Pkcs7.pad data Pkcs7.blockSize
  let ciphertext ← aesCbc P.aesCbcEncrypt t.mode.half padded t.encryptionKey iv
  let signedParts := iv ++ ciphertext
  return (signedParts ++ P.hmacSha256 t.signingKey signedParts,(r.random 16).2)

def decrypt (P : Platform) (t : Token) (token : Bytes) : Except Fault Bytes :=
  if token.length < 48 then
    .error (.invalidArgument
      ("Cannot decrypt token of only " ++ toString token.length ++ " bytes"))
  else do
    let valid ← t.verifyHmac P token
    if valid then
      let iv := Bytes.left token 16
      let ciphertext := Bytes.mid token 16 (token.length-48)
      let padded ← aesCbc P.aesCbcDecrypt t.mode.half ciphertext t.encryptionKey iv
      Pkcs7.unpad padded Pkcs7.blockSize
    else .error (.invalidArgument "Token HMAC was invalid")

def Authentic (P : Platform) (t : Token) (token : Bytes) : Prop :=
  Bytes.right token 32 = P.hmacSha256 t.signingKey (Bytes.left token (token.length-32))

instance (P : Platform) (t : Token) (token : Bytes) : Decidable (t.Authentic P token) :=
  inferInstanceAs (Decidable (_ = _))

/-- What it takes for `decrypt` to return, and what it then returns. -/
structure Opens (P : Platform) (t : Token) (token plaintext : Bytes) : Prop where
  long : 48 ≤ token.length
  authentic : t.Authentic P token
  aligned : token.length % 16 = 0
  unpads : Pkcs7.unpad (P.aesCbcDecrypt t.encryptionKey (Bytes.left token 16)
    (Bytes.mid token 16 (token.length-48))) Pkcs7.blockSize = .ok plaintext

theorem verifyHmac_eq {P : Platform} {t : Token} {token : Bytes} (h : 48 ≤ token.length) :
    t.verifyHmac P token = .ok (decide (t.Authentic P token)) := by
  have h32 : ¬ token.length ≤ 32 := by omega
  simp only [verifyHmac,h32,if_false]; rfl

theorem decrypt_iff {P : Platform} {t : Token} {token plaintext : Bytes} :
    t.decrypt P token = .ok plaintext ↔ t.Opens P token plaintext := by
  by_cases hs : token.length < 48
  · simp only [decrypt,hs,if_true]
    exact ⟨fun h => (by cases h),fun h => absurd h.long (by omega)⟩
  have hlong : 48 ≤ token.length := by omega
  have hmid : (Bytes.mid token 16 (token.length-48)).length = token.length-48 := by
    simp only [Bytes.mid,List.length_take,List.length_drop]; omega
  by_cases ha : t.Authentic P token
  · by_cases hal : token.length % 16 = 0
    · have hiv : (Bytes.left token 16).length = 16 := by simp; omega
      have hm : (Bytes.mid token 16 (token.length-48)).length % 16 = 0 := by rw [hmid]; omega
      simp only [decrypt,hs,if_false,verifyHmac_eq hlong,ha,decide_true,ok_bind,if_true,
        aesCbc_ok hm hiv t.encryptionKey_length]
      exact ⟨fun h => ⟨hlong,ha,hal,h⟩,fun h => h.unpads⟩
    · have hm : (token.length-48) % 16 ≠ 0 := by omega
      refine ⟨fun h => ?_,fun h => absurd h.aligned hal⟩
      simp [decrypt,hs,verifyHmac_eq hlong,ha,aesCbc,hmid,hm] at h
  · refine ⟨fun h => ?_,fun h => absurd h.authentic ha⟩
    simp [decrypt,hs,verifyHmac_eq hlong,ha] at h

theorem encrypt_eq {P : Platform} (t : Token) (data : Bytes) (r : Rng) :
    t.encrypt P data r = .ok
      (((r.random 16).1 ++ P.aesCbcEncrypt t.encryptionKey (r.random 16).1
          (Pkcs7.pad data Pkcs7.blockSize)) ++
        P.hmacSha256 t.signingKey ((r.random 16).1 ++
          P.aesCbcEncrypt t.encryptionKey (r.random 16).1 (Pkcs7.pad data Pkcs7.blockSize)),
        (r.random 16).2) := by
  have hpad : (Pkcs7.pad data Pkcs7.blockSize).length % 16 = 0 := by
    rw [Pkcs7.pad_length data (by decide)]; simp [Pkcs7.blockSize]
  simp [encrypt,aesCbc_ok hpad (r.random_length 16) t.encryptionKey_length]

theorem encrypt_length {P : Platform} {t : Token} {data c : Bytes} {r r' : Rng}
    (h : t.encrypt P data r = .ok (c,r')) : c.length = 48+16*(data.length/16+1) := by
  rw [encrypt_eq] at h
  simp only [Except.ok.injEq,Prod.mk.injEq] at h
  obtain ⟨rfl,-⟩ := h
  have hpad := Pkcs7.pad_length data (show 0 < Pkcs7.blockSize by decide)
  simp only [List.length_append,r.random_length,P.aesCbcEncrypt_length,P.hmacSha256_length,hpad]
  show 16+(data.length/16+1)*16+32 = _
  omega

theorem opens_encrypt {P : Platform} (hP : P.CbcInverts) {t : Token} {data c : Bytes}
    {r r' : Rng} (h : t.encrypt P data r = .ok (c,r')) : t.Opens P c data := by
  rw [encrypt_eq] at h
  simp only [Except.ok.injEq,Prod.mk.injEq] at h
  obtain ⟨rfl,rfl⟩ := h
  generalize hiv : (r.random 16).1 = iv
  have hivl : iv.length = 16 := hiv ▸ r.random_length 16
  generalize hp : Pkcs7.pad data Pkcs7.blockSize = p
  have hpl : p.length % 16 = 0 := by
    rw [← hp,Pkcs7.pad_length data (by decide)]; simp [Pkcs7.blockSize]
  generalize hct : P.aesCbcEncrypt t.encryptionKey iv p = ct
  have hctl : ct.length = p.length := by rw [← hct]; simp
  generalize hmac : P.hmacSha256 t.signingKey (iv ++ ct) = mac
  have hmacl : mac.length = 32 := by rw [← hmac]; simp
  have hlen : (iv ++ ct ++ mac).length = ct.length + 48 := by simp; omega
  have hbody : Bytes.left (iv ++ ct ++ mac) ((iv ++ ct ++ mac).length-32) = iv ++ ct := by
    rw [Bytes.left,List.take_append_of_le_length (by simp; omega),List.take_of_length_le]
    simp; omega
  have hmid : Bytes.mid (iv ++ ct ++ mac) 16 ((iv ++ ct ++ mac).length-48) = ct := by
    rw [hlen,Bytes.mid,List.append_assoc,List.drop_left' hivl]
    simp
  have hleft : Bytes.left (iv ++ ct ++ mac) 16 = iv := by
    rw [Bytes.left,List.append_assoc,List.take_left' hivl]
  refine ⟨by omega,?_,by omega,?_⟩
  · have hr : Bytes.right (iv ++ ct ++ mac) 32 = mac := by
      rw [Bytes.right,List.drop_left']; simp; omega
    rw [Authentic,hbody,hr,hmac]
  · have hk : t.encryptionKey.length = 16 ∨ t.encryptionKey.length = 32 := by
      rw [t.encryptionKey_length]; cases t.mode <;> simp [TokenMode.half]
    rw [hleft,hmid,← hct,hP _ _ _ hk hivl hpl,← hp]
    exact Pkcs7.unpad_pad data (by decide) (by decide)

end Token

structure Fernet where
  signingKey : Bytes
  encryptionKey : Bytes
  signingKey_length : signingKey.length = 16
  encryptionKey_length : encryptionKey.length = 16

namespace Fernet

def ofKey (key : Bytes) : Except Fault Fernet :=
  if key.isEmpty then .error (.invalidArgument "Fernet key cannot be empty")
  else if h : key.length = 32 then
    .ok ⟨Bytes.left key 16,Bytes.midFrom key 16,by simp [h],by simp [h]⟩
  else .error (.invalidArgument ("Fernet key must be 32 bytes, not " ++ toString key.length))

def verifyHmac (P : Platform) (f : Fernet) (token : Bytes) : Except Fault Bool :=
  if token.length ≤ 32 then
    .error (.invalidArgument
      ("Cannot verify HMAC on token of only " ++ toString token.length ++ " bytes"))
  else
    .ok (Bytes.right token 32 = P.hmacSha256 f.signingKey (Bytes.left token (token.length-32)))

def encrypt (P : Platform) (f : Fernet) (data : Bytes) (r : Rng) : Except Fault (Bytes × Rng) := do
  let iv := (r.random 16).1
  let ciphertext ←
    aesCbc P.aesCbcEncrypt 16 (Pkcs7.pad data Pkcs7.blockSize) f.encryptionKey iv
  let signedParts := iv ++ ciphertext
  return (signedParts ++ P.hmacSha256 f.signingKey signedParts,(r.random 16).2)

def decrypt (P : Platform) (f : Fernet) (token : Bytes) : Except Fault Bytes :=
  if token.length < 48 then
    .error (.invalidArgument
      ("Cannot decrypt token of only " ++ toString token.length ++ " bytes"))
  else do
    let valid ← f.verifyHmac P token
    if valid then
      let iv := Bytes.left token 16
      let ciphertext := Bytes.mid token 16 (token.length-48)
      let padded ← aesCbc P.aesCbcDecrypt 16 ciphertext f.encryptionKey iv
      Pkcs7.unpad padded Pkcs7.blockSize
    else .error (.invalidArgument "Fernet token HMAC was invalid")

def token (f : Fernet) : Token :=
  ⟨.aes128Cbc,f.signingKey,f.encryptionKey,f.signingKey_length,f.encryptionKey_length⟩

def ofKey32 (key : Bytes) (h : key.length = 32) : Fernet :=
  ⟨Bytes.left key 16,Bytes.midFrom key 16,by simp [h],by simp [h]⟩

theorem ofKey_32 {key : Bytes} (h : key.length = 32) :
    ofKey key = .ok (ofKey32 key h) ∧ Token.ofKey key = .ok (ofKey32 key h).token := by
  have hne : key ≠ [] := by rintro rfl; cases h
  constructor
  · simp [ofKey,ofKey32,hne,h]
  · simp [Token.ofKey,ofKey32,token,hne,h]

/-- The two classes differ in the text of one exception only. -/
theorem decrypt_iff (P : Platform) (f : Fernet) (token v : Bytes) :
    f.decrypt P token = .ok v ↔ f.token.decrypt P token = .ok v := by
  have hmac : f.verifyHmac P token = f.token.verifyHmac P token := rfl
  unfold decrypt Token.decrypt
  rw [hmac]
  split
  · rfl
  cases f.token.verifyHmac P token with
  | error e => rfl
  | ok valid =>
    cases valid with
    | true => rfl
    | false => simp

theorem encrypt_eq (P : Platform) (f : Fernet) (data : Bytes) (r : Rng) :
    f.encrypt P data r = f.token.encrypt P data r := rfl

end Fernet

end RNS
