import RTReticulum.Keys
import RTReticulum.Packet

/-! What is encrypted comes back, what opens is authentic, and what `pack` encrypts. -/
set_option autoImplicit false

namespace RNS

namespace Token
variable {P : Platform}

theorem ofKey_halves {key : Bytes} (h : key.length = 32 ∨ key.length = 64) :
    ∃ t, ofKey key = .ok t ∧ t.signingKey = Bytes.left key (key.length/2) ∧
      t.encryptionKey = Bytes.midFrom key (key.length/2) := by
  rcases h with h | h
  · have hhalf : key.length/2 = 16 := by omega
    rw [hhalf]
    exact ⟨_,(Fernet.ofKey_32 h).2,rfl,rfl⟩
  · have hhalf : key.length/2 = 32 := by omega
    rw [hhalf]
    exact ⟨_,ofKey_64 h,rfl,rfl⟩

theorem Opens.cut {t : Token} {token v : Bytes} (h : t.Opens P token v) :
    64 ≤ token.length ∧ (token.length-48) % 16 = 0 ∧ ∃ k, 1 ≤ k ∧ k ≤ 16 ∧
      v = (P.aesCbcDecrypt t.encryptionKey (Bytes.left token 16)
        (Bytes.mid token 16 (token.length-48))).take (token.length-48-k) := by
  have hlong := h.long
  have haligned := h.aligned
  have hlen : (P.aesCbcDecrypt t.encryptionKey (Bytes.left token 16)
      (Bytes.mid token 16 (token.length-48))).length = token.length-48 := by
    simp only [P.aesCbcDecrypt_length,Bytes.mid,List.length_take,List.length_drop]
    omega
  obtain ⟨hne,k,h₁,h₂,hv⟩ := Pkcs7.unpad_ok h.unpads
  have hpos := List.length_pos_iff.mpr hne
  rw [hlen] at hpos hv
  exact ⟨by omega,by omega,k,h₁,h₂,hv⟩

end Token

/-- A token of either key size gives back what was encrypted, whatever the IV. It returns
something only for a token of the right form with the right HMAC, and then the CBC plaintext
without its padding; otherwise it throws. With a key of 32 bytes `Fernet` does the same. -/
theorem token_roundtrip {P : Platform} (hc : P.CbcInverts) {key : Bytes}
    (hkey : key.length = 32 ∨ key.length = 64) : ∃ t, Token.ofKey key = .ok t ∧
      (∀ p r, ∃ c r', t.encrypt P p r = .ok (c,r') ∧ Bytes.left c 16 = (r.random 16).1 ∧
        t.decrypt P c = .ok p) ∧
      (∀ token, (∃ e, t.decrypt P token = .error e) ∨
        (∃ k, 64 ≤ token.length ∧ (token.length-48) % 16 = 0 ∧
          Bytes.right token 32 = P.hmacSha256 (Bytes.left key (key.length/2))
            (Bytes.left token (token.length-32)) ∧ 1 ≤ k ∧ k ≤ 16 ∧
          t.decrypt P token = .ok ((P.aesCbcDecrypt (Bytes.midFrom key (key.length/2))
            (Bytes.left token 16) (Bytes.mid token 16 (token.length-48))).take
              (token.length-48-k)))) ∧
      (key.length = 32 → ∃ f, Fernet.ofKey key = .ok f ∧
        ∀ token v, f.decrypt P token = .ok v ↔ t.decrypt P token = .ok v) := by
  obtain ⟨t,ht,hsign,henc⟩ := Token.ofKey_halves hkey
  refine ⟨t,ht,?_,?_,?_⟩
  · intro p r
    have heq := t.encrypt_eq (P := P) p r
    refine ⟨_,_,heq,?_,Token.decrypt_iff.mpr (Token.opens_encrypt hc heq)⟩
    rw [Bytes.left,List.append_assoc]
    exact List.take_left' (r.random_length 16)
  · intro token
    cases hd : t.decrypt P token with
    | error e => exact .inl ⟨e,rfl⟩
    | ok v =>
      have hopen := Token.decrypt_iff.mp hd
      obtain ⟨hlong,haligned,k,h₁,h₂,hv⟩ := hopen.cut
      have hauth := hopen.authentic
      rw [Token.Authentic,hsign] at hauth
      rw [henc] at hv
      exact .inr ⟨k,hlong,haligned,hauth,h₁,h₂,congrArg Except.ok hv⟩
  · intro h32
    obtain ⟨hf,hft⟩ := Fernet.ofKey_32 h32
    rw [ht,Except.ok.injEq] at hft
    subst hft
    exact ⟨_,hf,Fernet.decrypt_iff P _⟩

theorem token_roundtrip_empty : ∃ t c r, Token.ofKey (List.replicate 32 7) = .ok t ∧
    t.encrypt Sample.platform [] (Sample.rng 5) = .ok (c,r) ∧
    t.decrypt Sample.platform c = .ok [] := by
  have hkey : (List.replicate 32 (7 : UInt8)).length = 32 := rfl
  obtain ⟨t,ht,hround,-⟩ := token_roundtrip Sample.cbcInverts (.inl hkey)
  obtain ⟨c,r,henc,-,hdec⟩ := hround [] (Sample.rng 5)
  exact ⟨t,c,r,ht,henc,hdec⟩

namespace Identity

/-- The identities with private keys, as the code makes them: generated or loaded, and then
given application data or new hashes. -/
inductive Private (P : Platform) : Identity → Prop where
  | created (id : Identity) (r : Rng) : Private P (createKeys P id r).1
  | loaded {id id' : Identity} {b : Bytes} {r r' : Rng} :
      loadPrivateKey P id b r = (true,id',r') → Private P id'
  | appData {id : Identity} (d : Bytes) : Private P id → Private P { id with appData := d }
  | updated {id : Identity} : Private P id → Private P (updateHashes P id)

theorem Private.keyed {P : Platform} {id : Identity} (h : id.Private P) : id.Keyed P := by
  induction h with
  | created id r => exact createKeys_keyed id r
  | loaded h => exact loadPrivateKey_keyed h
  | appData d _ ih => exact ⟨ih.prv,ih.sigPrv,ih.pub,ih.sigPub,ih.hash⟩
  | updated _ ih => exact ⟨ih.prv,ih.sigPrv,ih.pub,ih.sigPub,rfl⟩

end Identity

/-- What is encrypted to the public key of an identity comes back, whoever holds the key; and
`decrypt` never throws, and has something to return only for an ephemeral key before a token
whose HMAC verifies under the key derived from it. -/
theorem identity_roundtrip {P : Platform} (hx : P.ExchangeCommutes) (hc : P.CbcInverts)
    {id : Identity} (hid : id.Private P) :
    (∀ (v : Identity) (p : Bytes) (r : Rng), ∃ c r',
      (v.loadPublicKey P id.getPublicKey).encrypt P p r = .ok (c,r') ∧ id.decrypt P c = .ok p) ∧
    (∀ c, ∃ p, id.decrypt P c = .ok p ∧ (p ≠ [] → ∃ k ephemeral token t,
      id.prv = some k ∧ c = ephemeral ++ token ∧ ephemeral.length = 32 ∧
      Token.ofKey (P.hkdfSha256 64 (P.x25519 k.privateBytes ephemeral) id.hash []) = .ok t ∧
      t.verifyHmac P token = .ok true)) := by
  have hkeyed := hid.keyed
  refine ⟨?_,?_⟩
  · intro v p r
    have hv := Identity.loadPublicKey_holds (P := P) v id.getPublicKey
    obtain ⟨hpub,-,-,hhash⟩ := hkeyed.holds hv
    have hsome : (v.loadPublicKey P id.getPublicKey).pub.isSome := by rw [hv.pub]; rfl
    have hlen : (v.loadPublicKey P id.getPublicKey).pubBytes.length = 32 :=
      hpub ▸ hkeyed.pubBytes_length
    obtain ⟨c,r',henc⟩ := Identity.encrypt_ok hsome hlen p r
    exact ⟨c,r',henc,Identity.decrypt_encrypt hx hc hkeyed hsome hpub hhash henc⟩
  · intro c
    obtain ⟨k,hk,-⟩ := hkeyed.prv
    obtain ⟨p,hp⟩ := Identity.decrypt_isOk (P := P) (Option.isSome_iff_exists.mpr ⟨k,hk⟩) c
    refine ⟨p,hp,fun hne => ?_⟩
    obtain ⟨hlong,t,ht,hopen⟩ := Identity.decrypt_opens hk hp hne
    have hleft : (Bytes.left c 32).length = 32 := by simp; omega
    rw [Identity.deriveToken_ok k id.hash hleft,Except.ok.injEq] at ht
    refine ⟨k,Bytes.left c 32,Bytes.midFrom c 32,t,hk,(List.take_append_drop 32 c).symm,hleft,
      ?_,?_⟩
    · rw [← ht]
      exact Token.ofKey_64 (by simp)
    · rw [Token.verifyHmac_eq hopen.long,decide_eq_true hopen.authentic]

theorem identity_roundtrip_byte : ∃ c r',
    (Identity.blank.loadPublicKey Sample.platform Sample.identity.getPublicKey).encrypt
      Sample.platform [0x41] (Sample.rng 6) = .ok (c,r') ∧
    Sample.identity.decrypt Sample.platform c = .ok [0x41] :=
  (identity_roundtrip Sample.exchangeCommutes Sample.cbcInverts
    (.created .blank (Sample.rng 1))).1 .blank [0x41] (Sample.rng 6)

/-- Packing throws, or puts on the wire what the destination's identity makes of the data. -/
def Packet.Sealed (P : Platform) (d : Destination) (p : Packet) (r : Rng) : Prop :=
  (∃ e, p.pack P r = .error e) ∨
  ∃ q id c r', p.pack P r = .ok (q,r') ∧ d.identity = some id ∧
    id.encrypt P p.data r = .ok (c,r') ∧
    q.raw = Packet.frame p.flags p.hops d.hash p.context c ∧ c ≠ p.data

theorem Destination.encrypt_plain {P : Platform} {d : Destination}
    (h : ¬ (d.type = .single ∧ d.identity.isSome)) (data : Bytes) (r : Rng) :
    d.encrypt P data r = .ok (data,r) := by
  unfold Destination.encrypt
  split
  · rename_i id htype hid
    exact absurd ⟨htype,by rw [hid]; rfl⟩ h
  · rfl

/-- Data leaves in clear just when the destination is not SINGLE or has no identity, which is
when none was given and the constructor did not make one. -/
theorem data_sealed_iff {P : Platform} (d : Destination) {p : Packet} (r : Rng)
    (hd : p.destination = some d) (hp : p.packetType = .data) :
    (p.Sealed P d r ↔ d.type = .single ∧ d.identity.isSome) ∧
    (∀ obj identity direction type appName aspects r₁ r₂,
      Destination.ofName P obj identity direction type appName aspects r₁ = .ok (d,r₂) →
      (d.type = .single ∧ d.identity.isSome ↔
        type = .single ∧ (identity.isSome ∨ direction = .dirIn))) ∧
    (∀ obj identity direction type hash,
      Destination.ofHash P obj identity direction type hash = .ok d →
      (d.type = .single ∧ d.identity.isSome ↔ type = .single ∧ identity.isSome)) := by
  refine ⟨⟨?_,?_⟩,?_,?_⟩
  · intro hs
    by_contra hno
    have henc := Destination.encrypt_plain (P := P) hno p.data r
    obtain ⟨q,hq,hraw⟩ := Packet.pack_of_encrypt hd hp henc
    rcases hs with ⟨e,he⟩ | ⟨q',id,c,r',hq',-,-,hraw',hne⟩
    · rw [hq] at he
      cases he
    · rw [hq] at hq'
      cases hq'
      rw [hraw] at hraw'
      exact hne (List.append_cancel_left hraw').symm
  · intro hs
    obtain ⟨htype,hsome⟩ := hs
    obtain ⟨id,hid⟩ := Option.isSome_iff_exists.mp hsome
    have henc : d.encrypt P p.data r = id.encrypt P p.data r := by
      simp only [Destination.encrypt,htype,hid]
    cases hc : id.encrypt P p.data r with
    | error e =>
      refine .inl ⟨e,?_⟩
      simp only [Packet.pack,hd,hp,if_true,henc,hc,error_bind]
    | ok x =>
      obtain ⟨c,r'⟩ := x
      have hlen := Identity.encrypt_length hc
      obtain ⟨q,hq,hraw⟩ := Packet.pack_of_encrypt hd hp (henc.trans hc)
      refine .inr ⟨q,id,c,r',hq,hid,hc,hraw,?_⟩
      rintro rfl
      omega
  · intro obj identity direction type appName aspects r₁ r₂ h
    obtain ⟨rfl,hiff⟩ := Destination.ofName_isSome h
    rw [hiff]
    constructor
    · intro hs
      exact ⟨hs.1,hs.2.imp id And.left⟩
    · intro hs
      exact ⟨hs.1,hs.2.imp id fun hin => ⟨hin,by rw [hs.1]; decide⟩⟩
  · intro obj identity direction type hash h
    obtain ⟨rfl,rfl⟩ := Destination.ofHash_identity h
    rfl

theorem data_sealed_single : (Packet.ofDestination Sample.outDestination [0x41] .data
    Context.none .broadcast).Sealed Sample.platform Sample.outDestination (Sample.rng 5) :=
  (data_sealed_iff Sample.outDestination (Sample.rng 5) rfl rfl).1.mpr ⟨rfl,rfl⟩

/-- A byte for a GROUP destination with an identity, and for a SINGLE one without. -/
theorem data_in_clear :
    ∃ group single q q', Destination.ofHash Sample.platform 0 (some Sample.identity) .dirOut .group
        (List.replicate 16 1) = .ok group ∧
      Destination.ofHash Sample.platform 0 none .dirOut .single (List.replicate 16 1) =
        .ok single ∧
      (Packet.ofDestination group [0x41] .data Context.none .broadcast).pack Sample.platform
        (Sample.rng 5) = .ok (q,Sample.rng 5) ∧ Bytes.midFrom q.raw 19 = [0x41] ∧
      (Packet.ofDestination single [0x41] .data Context.none .broadcast).pack Sample.platform
        (Sample.rng 5) = .ok (q',Sample.rng 5) ∧ Bytes.midFrom q'.raw 19 = [0x41] ∧
      ¬ (Packet.ofDestination group [0x41] .data Context.none .broadcast).Sealed Sample.platform
        group (Sample.rng 5) := by
  refine ⟨_,_,_,_,rfl,rfl,rfl,rfl,rfl,rfl,?_⟩
  intro h
  rcases h with ⟨e,he⟩ | ⟨q,id,c,r',hq,-,-,hraw,hne⟩
  · cases he
  · cases hq
    exact hne (List.append_cancel_left hraw).symm

end RNS
