import RTReticulum.Packet

/-! Announces: how `Destination::announce` builds one, and what `process_announce`
checks before it believes one. -/
set_option autoImplicit false

namespace RNS

def signedData (dest publicKey nameHash randomHash appData : Bytes) : Bytes :=
  dest ++ publicKey ++ nameHash ++ randomHash ++ appData

/-- `Destination::announce` up to the broadcast: the packed frame. -/
def announceFrame (P : Platform) (dest : Destination) (appData : Bytes) (r : Rng) :
    Except Fault (Bytes × Rng) :=
  if dest.type ≠ .single ∨ dest.direction ≠ .dirIn then
    .error (.invalidArgument "Only SINGLE+IN destinations can be announced")
  else
    let randomHash := (r.random randomHashBytes).1
    match dest.identity with
    | none => .error .nullIdentity
    | some id => do
      let signature ← id.sign P
        (signedData dest.hash id.getPublicKey dest.nameHash randomHash appData)
      let announceData := id.getPublicKey ++ dest.nameHash ++ randomHash ++ signature ++ appData
      let (packet,r) ← (Packet.ofDestination dest announceData .announce Context.none
        .broadcast).pack P (r.random randomHashBytes).2
      return (packet.raw,r)

/-- What `announce` builds for its packet: the payload as it was signed, with the signature. -/
def announceData (P : Platform) (dest : Destination) (id : Identity) (k : Ed25519PrivateKey)
    (randomHash appData : Bytes) : Bytes :=
  id.getPublicKey ++ dest.nameHash ++ randomHash ++
    k.sign P (signedData dest.hash id.getPublicKey dest.nameHash randomHash appData) ++ appData

theorem announceData_length (P : Platform) (d : Destination) (id : Identity)
    (k : Ed25519PrivateKey) (r : Rng) (app : Bytes) :
    (announceData P d id k (r.random randomHashBytes).1 app).length =
      id.getPublicKey.length + d.nameHash.length + 74 + app.length := by
  simp [announceData,randomHashBytes,r.random_length]
  omega

theorem announceFrame_ok {P : Platform} {d : Destination} (htype : d.type = .single)
    (hdir : d.direction = .dirIn) {id : Identity} (hid : d.identity = some id)
    {k : Ed25519PrivateKey} (hk : id.sigPrv = some k) (app : Bytes) (r : Rng) :
    ∃ raw r', announceFrame P d app r = .ok (raw,r') := by
  simp [announceFrame,htype,hdir,hid,Identity.sign_keyed hk,Packet.pack,Packet.ofDestination]

theorem announceFrame_made {P : Platform} {d : Destination} {app raw : Bytes} {r r' : Rng}
    (h : announceFrame P d app r = .ok (raw,r')) :
    d.type = .single ∧ ∃ id k, d.identity = some id ∧ id.sigPrv = some k ∧ raw = Packet.frame
      (Packet.packFlags .header1 .unset .broadcast d.type .announce) 0 d.hash Context.none
        ((announceData P d id k (r.random randomHashBytes).1 app).take Reticulum.mdu) := by
  unfold announceFrame at h
  split at h
  · cases h
  rename_i htype
  dsimp only at h
  split at h
  · cases h
  rename_i id hid
  obtain ⟨signature,hsign,h⟩ := bind_eq_ok.mp h
  obtain ⟨⟨packet,r₁⟩,hpack,h⟩ := bind_eq_ok.mp h
  cases h
  cases hpack
  refine ⟨by simpa using not_or.mp htype |>.1,id,?_⟩
  cases hk : id.sigPrv with
  | none => simp [Identity.sign,hk] at hsign
  | some k =>
    rw [Identity.sign_keyed hk] at hsign
    cases hsign
    exact ⟨k,hid,rfl,congrArg (Packet.frame _ _ _ _) (Packet.ofDestination_data d _ _ _ _)⟩

structure Announce where
  publicKey : Bytes
  nameHash : Bytes
  randomHash : Bytes
  signature : Bytes
  appData : Bytes
  identity : Identity

namespace Announce
variable (P : Platform)

abbrev minBytes : Nat := 148

def ofData (d : Bytes) : Announce where
  publicKey := Bytes.left d 64
  nameHash := Bytes.mid d 64 10
  randomHash := Bytes.mid d 74 10
  signature := Bytes.mid d 84 64
  appData := if d.length > minBytes then Bytes.midFrom d minBytes else []
  identity := Identity.blank.loadPublicKey P (Bytes.left d 64)

/-- The checks of `process_announce` after the duplicate filter. -/
def check (packet : Packet) : Option Announce :=
  let a := ofData P packet.data
  if packet.data.length < minBytes then none
  else if !a.identity.validate P a.signature (signedData packet.destinationHash a.publicKey
      a.nameHash a.randomHash a.appData) then none
  else if truncatedHash P (a.nameHash ++ a.identity.hash) ≠ packet.destinationHash then none
  else some a

/-- The announce in a packet holds together: its signature verifies under the key it
carries, and the address is bound to that key. -/
structure Genuine (packet : Packet) (a : Announce) : Prop where
  fields : a = ofData P packet.data
  long : minBytes ≤ packet.data.length
  signed : ed25519Verify P (Bytes.midFrom a.publicKey 32) a.signature (signedData
    packet.destinationHash a.publicKey a.nameHash a.randomHash a.appData) = true
  bound : packet.destinationHash = truncatedHash P (a.nameHash ++ truncatedHash P a.publicKey)

variable {P}

theorem check_iff {packet : Packet} {a : Announce} :
    check P packet = some a ↔ Genuine P packet a := by
  have hid : (ofData P packet.data).identity.hash =
      truncatedHash P (ofData P packet.data).publicKey := by simp [ofData]
  have hval : ∀ s m, (ofData P packet.data).identity.validate P s m =
      ed25519Verify P (Bytes.midFrom (ofData P packet.data).publicKey 32) s m :=
    fun _ _ => rfl
  unfold check
  simp only [hid,hval]
  constructor
  · intro h
    split at h
    · cases h
    split at h
    · cases h
    split at h
    · cases h
    rename_i hlong hsig hbound
    cases h
    exact ⟨rfl,by omega,by simpa using hsig,(not_not.mp hbound).symm⟩
  · rintro ⟨rfl,hlong,hsig,hbound⟩
    have hshort : ¬ packet.data.length < minBytes := by omega
    rw [if_neg hshort,if_neg (by simp [hsig]),if_neg (not_not.mpr hbound.symm)]

theorem Genuine.publicKey_length {packet : Packet} {a : Announce} (h : Genuine P packet a) :
    a.publicKey.length = 64 := by
  have hlong : 148 ≤ packet.data.length := h.long
  rw [h.fields]
  simp only [ofData,Bytes.left,List.length_take]
  omega

theorem Genuine.congr {p q : Packet} {a : Announce} (h : Genuine P p a)
    (hdest : q.destinationHash = p.destinationHash) (hdata : q.data = p.data) :
    Genuine P q a :=
  ⟨hdata ▸ h.fields,hdata ▸ h.long,hdest ▸ h.signed,hdest ▸ h.bound⟩

theorem ofData_append {pk nh rh sig app : Bytes} (hpk : pk.length = 64)
    (hnh : nh.length = 10) (hrh : rh.length = 10) (hsig : sig.length = 64) :
    ofData P (pk ++ nh ++ rh ++ sig ++ app) =
      ⟨pk,nh,rh,sig,app,Identity.blank.loadPublicKey P pk⟩ := by
  have h64 : Bytes.left (pk ++ nh ++ rh ++ sig ++ app) 64 = pk := by
    simp [Bytes.left,List.append_assoc,List.take_left' hpk]
  have hmid : ∀ (a b c : Bytes) (i k : Nat), a.length = i → b.length = k →
      Bytes.mid (a ++ b ++ c) i k = b := by
    intro a b c i k ha hb
    rw [Bytes.mid,List.append_assoc,List.drop_left' ha,List.take_left' hb]
  have h1 := hmid pk nh (rh ++ sig ++ app) 64 10 hpk hnh
  have h2 := hmid (pk ++ nh) rh (sig ++ app) 74 10 (by simp [hpk,hnh]) hrh
  have h3 := hmid (pk ++ nh ++ rh) sig app 84 64 (by simp [hpk,hnh,hrh]) hsig
  have h4 : (if (pk ++ nh ++ rh ++ sig ++ app).length > minBytes then
      Bytes.midFrom (pk ++ nh ++ rh ++ sig ++ app) minBytes else []) = app := by
    have hpre : (pk ++ nh ++ rh ++ sig).length = minBytes := by simp [hpk,hnh,hrh,hsig]
    split
    · exact List.drop_left' hpre
    · rename_i hgt
      have happ : app.length = 0 := by
        simp only [List.length_append] at hgt hpre; omega
      exact (List.eq_nil_of_length_eq_zero happ).symm
  simp only [List.append_assoc] at h1 h2 h3 h4 h64 ⊢
  simp only [ofData,h1,h2,h3,h4,h64]

theorem ofData_announceData {d : Destination} {id : Identity} {k : Ed25519PrivateKey}
    (hpk : id.getPublicKey.length = 64) (hnh : d.nameHash.length = 10) (r : Rng) (app : Bytes) :
    ofData P (announceData P d id k (r.random randomHashBytes).1 app) =
      ⟨id.getPublicKey,d.nameHash,(r.random randomHashBytes).1,k.sign P (signedData d.hash
        id.getPublicKey d.nameHash (r.random randomHashBytes).1 app),app,
        Identity.blank.loadPublicKey P id.getPublicKey⟩ :=
  ofData_append hpk hnh (r.random_length 10) (k.sign_length P _)

/-- An announce of a keyed identity is a frame that anyone believes, if its application
data fits. -/
theorem announceFrame_genuine (hv : P.VerifiesOwn) {d : Destination} {id : Identity}
    (htype : d.type = .single) (hdir : d.direction = .dirIn) (hid : d.identity = some id)
    (hkeyed : id.Keyed P) (hnh : d.nameHash.length = 10)
    (hhash : d.hash = truncatedHash P (d.nameHash ++ id.hash)) {app : Bytes}
    (happ : app.length ≤ 316) (r : Rng) :
    ∃ (data : Bytes) (r' : Rng) (a : Announce), announceFrame P d app r = .ok (Packet.frame
        (Packet.packFlags .header1 .unset .broadcast .single .announce) 0 d.hash Context.none
          data,r') ∧
      a.identity.getPublicKey = id.getPublicKey ∧ a.publicKey = id.getPublicKey ∧
      a.appData = app ∧
      ∀ packet : Packet, packet.destinationHash = d.hash → packet.data = data →
        a.Genuine P packet := by
  obtain ⟨k,hk,hkpub⟩ := hkeyed.sigPrv
  have hpk := hkeyed.getPublicKey_length
  have hright : Bytes.midFrom id.getPublicKey 32 = id.sigPubBytes :=
    List.drop_left' hkeyed.pubBytes_length
  obtain ⟨raw,r',hframe⟩ := announceFrame_ok (P := P) htype hdir hid hk app r
  obtain ⟨-,id',k',hid',hk',hraw⟩ := announceFrame_made hframe
  cases hid.symm.trans hid'
  cases hk.symm.trans hk'
  have hlen := announceData_length P d id k r app
  rw [hpk,hnh] at hlen
  have hfits : (announceData P d id k (r.random randomHashBytes).1 app).length ≤
      Reticulum.mdu := by
    rw [hlen]
    show _ ≤ 464
    omega
  rw [List.take_of_length_le hfits] at hraw
  have hfields := ofData_announceData (P := P) (k := k) hpk hnh r app
  generalize announceData P d id k (r.random randomHashBytes).1 app = data at *
  refine ⟨data,r',ofData P data,by rw [hframe,hraw,htype],?_,by rw [hfields],by rw [hfields],?_⟩
  · rw [hfields]
    show Bytes.left id.getPublicKey 32 ++ Bytes.midFrom id.getPublicKey 32 = _
    exact List.take_append_drop 32 _
  · intro packet hpdest hpdata
    refine ⟨by rw [hpdata],?_,?_,?_⟩
    · rw [hpdata,hlen]
      show 148 ≤ _
      omega
    · rw [hfields,hpdest]
      show ed25519Verify P (Bytes.midFrom id.getPublicKey 32) _ _ = true
      rw [hright,hkpub]
      exact ed25519Verify_sign hv k _
    · rw [hfields,hpdest,hhash,hkeyed.hash]

end Announce

end RNS
