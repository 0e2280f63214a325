import RTReticulum.Packet

/-! `link.cpp`: what a handshake computes on one link. Tables, callbacks and broadcasts
come with the node. -/
set_option autoImplicit false

namespace RNS

inductive LinkStatus where
  | pending | handshake | active | closed
  deriving DecidableEq, Repr

/-- The public halves of the ephemeral keys are never set apart from the private ones, so
they are functions here; callbacks are named by numbers. -/
structure Link where
  destination : Destination
  initiator : Bool
  status : LinkStatus
  ephX25519Prv : X25519PrivateKey
  ephEd25519Prv : Ed25519PrivateKey
  peerX25519Pub : Bytes
  sharedSessionKey : Bytes
  hash : Bytes
  localMtu : UInt32
  mtu : UInt32
  token : Option Token
  onEstablished : Option Nat
  onPacket : Option Nat

/-- Three bytes, big-endian: the mode `MODE_AES256_CBC` in the upper three bits, the MTU
in the lower 21. -/
def encodeSignalling (mtu : UInt32) : Bytes :=
  let masked := mtu &&& 0x1FFFFF
  let modeBits := ((0x01 : UInt8) <<< 5) &&& 0xE0
  [((masked >>> 16) &&& 0x1F).toUInt8 ||| modeBits,((masked >>> 8) &&& 0xFF).toUInt8,
    (masked &&& 0xFF).toUInt8]

def decodeMtu (p : Bytes) : UInt32 :=
  ((p.getD 0 0).toUInt32 <<< 16 ||| (p.getD 1 0).toUInt32 <<< 8 ||| (p.getD 2 0).toUInt32) &&&
    0x1FFFFF

/-- A frame addressed to a link, built by hand where `pack` cannot be used. -/
def linkFrame (type : PacketType) (hash : Bytes) (context : Context) (data : Bytes) : Bytes :=
  Packet.frame (Packet.packFlags .header1 .unset .broadcast .link type) 0 hash context data

theorem BitVec.mod_256 (x : BitVec 32) : x % 256#32 = x &&& 255#32 := by
  apply BitVec.eq_of_toNat_eq
  rw [BitVec.toNat_umod,BitVec.toNat_and]
  exact (Nat.and_two_pow_sub_one_eq_mod x.toNat 8).symm

@[simp] theorem encodeSignalling_length (mtu : UInt32) : (encodeSignalling mtu).length = 3 := rfl

/-- The MTU comes back cut to 21 bits; the mode is dropped. -/
theorem decodeMtu_encodeSignalling (mtu : UInt32) (rest : Bytes) :
    decodeMtu (encodeSignalling mtu ++ rest) = mtu &&& 0x1FFFFF := by
  apply UInt32.eq_of_toBitVec_eq
  apply BitVec.eq_of_getLsbD_eq
  intro i hi
  simp [decodeMtu,encodeSignalling,BitVec.mod_256]
  interval_cases i <;> simp

theorem toNat_and_mtuBytemask (mtu : UInt32) : (mtu &&& 0x1FFFFF).toNat = mtu.toNat % 2^21 := by
  rw [UInt32.toNat_and]
  exact Nat.and_two_pow_sub_one_eq_mod mtu.toNat 21

namespace Link
variable (P : Platform)

def create (destination : Destination) (initiator : Bool) (r : Rng) : Link × Rng :=
  let x := X25519PrivateKey.generate r
  let e := Ed25519PrivateKey.generate x.2
  (⟨destination,initiator,.pending,x.1,e.1,[],[],[],0,500,none,none,none⟩,e.2)

def ephX25519Pub (l : Link) : Bytes := l.ephX25519Prv.publicBytes P
def ephEd25519Pub (l : Link) : Bytes := l.ephEd25519Prv.publicBytes P

def openSessionFromPeerPub (l : Link) (peerX25519Pub : Bytes) : Except Fault Link := do
  let shared ← l.ephX25519Prv.exchange P peerX25519Pub
  let sharedSessionKey ← hkdf P 64 shared l.hash []
  let token ← Token.ofKey sharedSessionKey
  return { l with
    peerX25519Pub := peerX25519Pub, sharedSessionKey := sharedSessionKey, token := some token }

/-- What follows the 64 bytes of public keys in the request data does not count. -/
def linkIdFromLrPacket (packet : Packet) (dataLen : Nat) : Bytes :=
  let hashable := packet.getHashablePart
  let diff := dataLen-64
  truncatedHash P (if dataLen > 64 ∧ hashable.length > diff then
    Bytes.left hashable (hashable.length-diff) else hashable)

def requestData (l : Link) : Bytes :=
  l.ephX25519Pub P ++ l.ephEd25519Pub P ++
    if l.localMtu ≠ 0 then encodeSignalling l.localMtu else []

/-- `Link::request` up to the registration: the link, and the frame to broadcast. -/
def request (destination : Destination) (onEstablished onPacket : Option Nat)
    (advertisedMtu : UInt32) (r : Rng) : Except Fault ((Link × Bytes) × Rng) := do
  let (link,r) := create destination true r
  let link := { link with
    onEstablished := onEstablished, onPacket := onPacket, status := .handshake
    localMtu := advertisedMtu, mtu := if advertisedMtu ≠ 0 then advertisedMtu else 500 }
  let (pkt,r) ← (Packet.ofDestination destination (link.requestData P) .linkRequest
    Context.none .broadcast).pack P r
  let link := { link with hash := linkIdFromLrPacket P pkt (link.requestData P).length }
  return ((link,pkt.raw),r)

def signalling (hasMtu : Bool) (mtu : UInt32) : Bytes :=
  if hasMtu then encodeSignalling mtu else []

def signedMaterial (linkId ephX25519Pub signingPublicKey signalling : Bytes) : Bytes :=
  linkId ++ ephX25519Pub ++ signingPublicKey ++ signalling

def validateRequest (owner : Destination) (requestData : Bytes) (requestPacket : Packet) (r : Rng) :
    Except Fault (Option (Link × Bytes) × Rng) :=
  if requestData.length ≠ 64 ∧ requestData.length ≠ 67 then .ok (none,r)
  else do
    let hasMtu := decide (requestData.length = 67)
    let (link,r) := create owner false r
    let link := { link with
      mtu := if hasMtu then decodeMtu (Bytes.midFrom requestData 64) else link.mtu
      hash := linkIdFromLrPacket P requestPacket requestData.length }
    let link ← link.openSessionFromPeerPub P (Bytes.left requestData 32)
    let link := { link with status := .active }
    match owner.identity with
    | none => .error .nullIdentity
    | some id =>
      let signalling := signalling hasMtu link.mtu
      let signature ← id.sign P
        (signedMaterial link.hash (link.ephX25519Pub P) id.sigPubBytes signalling)
      let proofData := signature ++ link.ephX25519Pub P ++ signalling
      return (some (link,linkFrame .proof link.hash Context.lrproof proofData),r)

/-- `Link::on_proof` after its first test, up to the callback. The MTU and the session
are overwritten before the signature is checked. -/
def onProof (l : Link) (d : Bytes) : Except Fault Link :=
  if d.length ≠ 96 ∧ d.length ≠ 99 then .ok l
  else do
    let signature := Bytes.left d 64
    let peerX25519Pub := Bytes.mid d 64 32
    let signalling := if d.length = 99 then Bytes.mid d 96 3 else []
    let l := { l with mtu := if d.length = 99 then decodeMtu (Bytes.midFrom d 96) else l.mtu }
    let l ← l.openSessionFromPeerPub P peerX25519Pub
    match l.destination.identity with
    | none => .error .nullIdentity
    | some id =>
      if id.validate P signature (signedMaterial l.hash peerX25519Pub id.sigPubBytes signalling)
      then return { l with status := .active }
      else return { l with status := .closed }

def sessionKey (l : Link) (peer : Bytes) : Bytes :=
  P.hkdfSha256 64 (P.x25519 l.ephX25519Prv.privateBytes peer) l.hash []

@[simp] theorem sessionKey_length (l : Link) (peer : Bytes) :
    (l.sessionKey P peer).length = 64 := by simp [sessionKey]

def opened (l : Link) (peer : Bytes) : Link :=
  { l with
    peerX25519Pub := peer, sharedSessionKey := l.sessionKey P peer
    token := some (Token.ofKey64 (l.sessionKey P peer) (l.sessionKey_length P peer)) }

variable {P}

@[simp] theorem ephX25519Pub_length (l : Link) : (l.ephX25519Pub P).length = 32 := by
  simp [ephX25519Pub]

@[simp] theorem ephEd25519Pub_length (l : Link) : (l.ephEd25519Pub P).length = 32 := by
  simp [ephEd25519Pub]

theorem openSessionFromPeerPub_ok (l : Link) {peer : Bytes} (h : peer.length = 32) :
    l.openSessionFromPeerPub P peer = .ok (l.opened P peer) := by
  have hne : P.x25519 l.ephX25519Prv.privateBytes peer ≠ [] := by
    intro hnil
    simpa [hnil] using P.x25519_length l.ephX25519Prv.privateBytes peer
  have h64 : (64 : Nat) ≠ 0 := by decide
  have hkey : Token.ofKey (P.hkdfSha256 64 (P.x25519 l.ephX25519Prv.privateBytes peer) l.hash [])
      = .ok (Token.ofKey64 (l.sessionKey P peer) (l.sessionKey_length P peer)) :=
    Token.ofKey_64 (l.sessionKey_length P peer)
  simp only [openSessionFromPeerPub,X25519PrivateKey.exchange_ok h,hkdf_ok h64 hne,ok_bind,hkey]
  rfl

theorem requestData_length (l : Link) :
    (l.requestData P).length = 64 ∨ (l.requestData P).length = 67 := by
  by_cases h : l.localMtu = 0 <;> simp [requestData,h]

/-- The id of a link is a hash of the request up to the end of the public keys. -/
theorem linkIdFromLrPacket_eq {packet : Packet} {low : UInt8} {dest keys tail : Bytes}
    {ctx : Context} (h : packet.getHashablePart = low :: (dest ++ ctx :: (keys ++ tail)))
    (hk : keys.length = 64) :
    linkIdFromLrPacket P packet (keys ++ tail).length =
      truncatedHash P (low :: (dest ++ ctx :: keys)) := by
  have hsplit : low :: (dest ++ ctx :: (keys ++ tail)) = low :: (dest ++ ctx :: keys) ++ tail := by
    simp
  have hdiff : (keys ++ tail).length - 64 = tail.length := by simp [hk]
  simp only [linkIdFromLrPacket,h,hdiff,hsplit]
  congr 1
  split
  · exact List.take_left' (by simp; omega)
  · rename_i hnot
    have htail : tail.length = 0 := by
      by_contra hne
      refine hnot ⟨?_,?_⟩ <;> simp <;> omega
    simp [List.eq_nil_of_length_eq_zero htail]

variable (P) in
def requestFrame (l : Link) : Bytes :=
  Packet.frame (Packet.packFlags .header1 .unset .broadcast l.destination.type .linkRequest) 0
    l.destination.hash Context.none (l.requestData P)

variable (P) in
def requestId (l : Link) : Bytes :=
  truncatedHash P
    ((Packet.packFlags .header1 .unset .broadcast l.destination.type .linkRequest &&& 0x0F) ::
      (l.destination.hash ++ Context.none :: (l.ephX25519Pub P ++ l.ephEd25519Pub P)))

structure Requested (P : Platform) (destination : Destination)
    (onEstablished onPacket : Option Nat) (advertisedMtu : UInt32) (l : Link) : Prop where
  destination : l.destination = destination
  initiator : l.initiator = true
  status : l.status = .handshake
  onEstablished : l.onEstablished = onEstablished
  onPacket : l.onPacket = onPacket
  localMtu : l.localMtu = advertisedMtu
  mtu : l.mtu = if advertisedMtu ≠ 0 then advertisedMtu else 500
  hash : l.hash = l.requestId P

theorem request_ok (destination : Destination) (onEstablished onPacket : Option Nat)
    (advertisedMtu : UInt32) (r : Rng) :
    ∃ l r', request P destination onEstablished onPacket advertisedMtu r =
        .ok ((l,l.requestFrame P),r') ∧
      l.Requested P destination onEstablished onPacket advertisedMtu := by
  generalize hl : (create destination true r).1 = l₀
  have hd : l₀.destination = destination := by rw [← hl]; rfl
  have hi : l₀.initiator = true := by rw [← hl]; rfl
  let l : Link := { l₀ with
    onEstablished := onEstablished, onPacket := onPacket, status := .handshake
    localMtu := advertisedMtu, mtu := if advertisedMtu ≠ 0 then advertisedMtu else 500 }
  have hlen : (l.requestData P).length ≤ Reticulum.mdu := by
    have hmdu : Reticulum.mdu = 464 := rfl
    have := l.requestData_length (P := P)
    omega
  obtain ⟨p,hp,hraw,hheader⟩ := Packet.pack_ofDestination (P := P) (t := .linkRequest) destination
    (l.requestData P) Context.none .broadcast (create destination true r).2 (by decide) hlen
  let l' : Link := { l with hash := linkIdFromLrPacket P p (l.requestData P).length }
  have hframe : p.raw = l'.requestFrame P := by
    rw [hraw,requestFrame,show l'.destination = destination from hd]; rfl
  refine ⟨l',(create destination true r).2,?_,hd,hi,rfl,rfl,rfl,rfl,rfl,?_⟩
  · simp only [request,hl]
    rw [← hframe]
    show (Packet.pack P (Packet.ofDestination destination (l.requestData P) .linkRequest
      Context.none .broadcast) _ >>= _) = _
    rw [hp]
    rfl
  · have hpart : p.getHashablePart =
        (Packet.packFlags .header1 .unset .broadcast destination.type .linkRequest &&& 0x0F) ::
          (destination.hash ++ Context.none :: (l.ephX25519Pub P ++ l.ephEd25519Pub P ++
            if l.localMtu ≠ 0 then encodeSignalling l.localMtu else [])) := by
      rw [Packet.getHashablePart,hheader,hraw]
      simp [Packet.hashablePart,Packet.frame,requestData]
    show linkIdFromLrPacket P p (l.requestData P).length = l'.requestId P
    rw [requestData,linkIdFromLrPacket_eq hpart (by simp),requestId,
      show l'.destination = destination from hd]
    rfl

def Keyed (l : Link) : Prop :=
  ∃ h, l.token = some (Token.ofKey64 l.sharedSessionKey h)

structure Validated (P : Platform) (owner : Destination) (requestData : Bytes)
    (requestPacket : Packet) (l : Link) : Prop where
  destination : l.destination = owner
  initiator : l.initiator = false
  status : l.status = .active
  hash : l.hash = linkIdFromLrPacket P requestPacket requestData.length
  mtu : l.mtu = if requestData.length = 67 then decodeMtu (Bytes.midFrom requestData 64) else 500
  peer : l.peerX25519Pub = Bytes.left requestData 32
  key : l.sharedSessionKey = l.sessionKey P (Bytes.left requestData 32)
  keyed : l.Keyed
  onEstablished : l.onEstablished = none

variable (P) in
def proofData (l : Link) (owner : Identity) (k : Ed25519PrivateKey) (hasMtu : Bool) : Bytes :=
  k.sign P (signedMaterial l.hash (l.ephX25519Pub P) owner.sigPubBytes (signalling hasMtu l.mtu))
    ++ l.ephX25519Pub P ++ signalling hasMtu l.mtu

theorem proofData_length (l : Link) (owner : Identity) (k : Ed25519PrivateKey) (hasMtu : Bool) :
    (l.proofData P owner k hasMtu).length = if hasMtu then 99 else 96 := by
  cases hasMtu <;> simp [proofData,signalling]

theorem validateRequest_bad {owner : Destination} {data : Bytes} {packet : Packet} {r : Rng}
    (h : data.length ≠ 64 ∧ data.length ≠ 67) :
    validateRequest P owner data packet r = .ok (none,r) := by
  simp [validateRequest,h]

variable (P) in
def validating (owner : Destination) (data : Bytes) (packet : Packet) (r : Rng) : Link :=
  let link := (create owner false r).1
  let link := { link with
    mtu := if data.length = 67 then decodeMtu (Bytes.midFrom data 64) else link.mtu
    hash := linkIdFromLrPacket P packet data.length }
  { link.opened P (Bytes.left data 32) with status := .active }

theorem validating_validated (owner : Destination) (data : Bytes) (packet : Packet) (r : Rng) :
    Validated P owner data packet (validating P owner data packet r) where
  destination := rfl
  initiator := rfl
  status := rfl
  hash := rfl
  mtu := rfl
  peer := rfl
  key := rfl
  keyed := ⟨sessionKey_length P _ _,rfl⟩
  onEstablished := rfl

theorem validateRequest_eq {owner : Destination} {data : Bytes} {packet : Packet} {r : Rng}
    (h : data.length = 64 ∨ data.length = 67) :
    validateRequest P owner data packet r =
      match owner.identity with
      | none => .error .nullIdentity
      | some id =>
        match id.sigPrv with
        | none => .error (.runtimeError "Signing failed: no signing key")
        | some k =>
          let l := validating P owner data packet r
          .ok (some (l,linkFrame .proof l.hash Context.lrproof
            (l.proofData P id k (data.length = 67))),(create owner false r).2) := by
  have hlen : ¬ (data.length ≠ 64 ∧ data.length ≠ 67) := by omega
  have hleft : (Bytes.left data 32).length = 32 := by simp; omega
  simp only [validateRequest,hlen,if_false,openSessionFromPeerPub_ok _ hleft,ok_bind,
    decide_eq_true_eq]
  cases owner.identity with
  | none => rfl
  | some id =>
    cases hk : id.sigPrv with
    | none => simp only [Identity.sign,hk]; rfl
    | some k => simp only [Identity.sign,hk]; rfl

variable (P) in
/-- What `on_proof` has written before it checks the signature. -/
def proving (l : Link) (d : Bytes) : Link :=
  ({ l with mtu := if d.length = 99 then decodeMtu (Bytes.midFrom d 96) else l.mtu }).opened P
    (Bytes.mid d 64 32)

variable (P) in
def Proven (l : Link) (id : Identity) (d : Bytes) : Prop :=
  id.validate P (Bytes.left d 64) (signedMaterial l.hash (Bytes.mid d 64 32) id.sigPubBytes
    (if d.length = 99 then Bytes.mid d 96 3 else [])) = true

instance (l : Link) (id : Identity) (d : Bytes) : Decidable (l.Proven P id d) :=
  inferInstanceAs (Decidable (_ = _))

theorem onProof_bad {l : Link} {d : Bytes} (h : d.length ≠ 96 ∧ d.length ≠ 99) :
    l.onProof P d = .ok l := by
  simp [onProof,h]

theorem onProof_eq {l : Link} {d : Bytes} (h : d.length = 96 ∨ d.length = 99) :
    l.onProof P d =
      match l.destination.identity with
      | none => .error .nullIdentity
      | some id =>
        .ok { l.proving P d with status := if l.Proven P id d then .active else .closed } := by
  have hlen : ¬ (d.length ≠ 96 ∧ d.length ≠ 99) := by omega
  have hmid : (Bytes.mid d 64 32).length = 32 := by simp; omega
  simp only [onProof,hlen,if_false,openSessionFromPeerPub_ok _ hmid,ok_bind]
  show (match l.destination.identity with | none => _ | some id => _) = _
  cases l.destination.identity with
  | none => rfl
  | some id =>
    by_cases hv : l.Proven P id d
    · simp only [if_pos hv]
      exact if_pos hv
    · simp only [if_neg hv]
      exact if_neg hv

section
variable (r : Link) (owner : Identity) (k : Ed25519PrivateKey) (hasMtu : Bool)

theorem proofData_fields :
    Bytes.left (r.proofData P owner k hasMtu) 64 = k.sign P
        (signedMaterial r.hash (r.ephX25519Pub P) owner.sigPubBytes (signalling hasMtu r.mtu)) ∧
      Bytes.mid (r.proofData P owner k hasMtu) 64 32 = r.ephX25519Pub P ∧
      Bytes.midFrom (r.proofData P owner k hasMtu) 96 = signalling hasMtu r.mtu := by
  generalize hs : signedMaterial r.hash (r.ephX25519Pub P) owner.sigPubBytes
    (signalling hasMtu r.mtu) = m
  simp only [proofData,hs]
  refine ⟨?_,?_,List.drop_left' (by simp)⟩
  · rw [Bytes.left,List.append_assoc,List.take_left' (by simp)]
  · rw [Bytes.mid,List.append_assoc,List.drop_left' (by simp),List.take_left' (by simp)]

/-- The proof of a responder satisfies an initiator that knows the same id and key. -/
theorem proven_proofData (hP : P.VerifiesOwn) {l : Link} {id : Identity} (hhash : l.hash = r.hash)
    (hid : id.sigPub = some (k.publicBytes P)) (hpub : id.sigPubBytes = owner.sigPubBytes) :
    l.Proven P id (r.proofData P owner k hasMtu) := by
  obtain ⟨hleft,hmid,hrest⟩ := r.proofData_fields (P := P) owner k hasMtu
  have hsig : (if (r.proofData P owner k hasMtu).length = 99 then
      Bytes.mid (r.proofData P owner k hasMtu) 96 3 else []) = signalling hasMtu r.mtu := by
    have hmid' : Bytes.mid (r.proofData P owner k hasMtu) 96 3 = (signalling hasMtu r.mtu).take 3 :=
      congrArg (List.take 3) hrest
    rw [proofData_length,hmid']
    cases hasMtu <;> simp [signalling]
  rw [Proven,hleft,hmid,hsig,hhash,hpub]
  simp only [Identity.validate,hid]
  exact ed25519Verify_sign hP k _

end

def negotiatedMtu (advertised : UInt32) : UInt32 :=
  if advertised = 0 then 500 else advertised &&& 0x1FFFFF

theorem toNat_negotiatedMtu (advertised : UInt32) :
    (negotiatedMtu advertised).toNat = if advertised = 0 then 500 else advertised.toNat % 2^21 := by
  unfold negotiatedMtu
  split
  · rfl
  · exact toNat_and_mtuBytemask advertised

theorem requestData_left (l : Link) :
    Bytes.left (l.requestData P) 32 = l.ephX25519Pub P := by
  rw [requestData,List.append_assoc]
  exact List.take_left' (by simp)

theorem requestData_length_iff (l : Link) :
    (l.requestData P).length = 67 ↔ l.localMtu ≠ 0 := by
  by_cases h : l.localMtu = 0 <;> simp [requestData,h]

theorem requestData_mtu (l : Link) : (if (l.requestData P).length = 67 then
    decodeMtu (Bytes.midFrom (l.requestData P) 64) else 500) = negotiatedMtu l.localMtu := by
  by_cases h : l.localMtu = 0
  · simp [requestData,negotiatedMtu,h]
  · have hrest : Bytes.midFrom (l.requestData P) 64 = encodeSignalling l.localMtu ++ [] := by
      rw [requestData,if_pos h,List.append_nil]
      exact List.drop_left' (by simp)
    rw [if_pos (l.requestData_length_iff.mpr h),hrest,decodeMtu_encodeSignalling,negotiatedMtu,
      if_neg h]

theorem proofData_mtu {l r : Link} (owner : Identity) (k : Ed25519PrivateKey)
    (hmtu : l.mtu = if l.localMtu ≠ 0 then l.localMtu else 500)
    (hr : r.mtu = negotiatedMtu l.localMtu) :
    (if (r.proofData P owner k (l.localMtu ≠ 0)).length = 99 then
      decodeMtu (Bytes.midFrom (r.proofData P owner k (l.localMtu ≠ 0)) 96) else l.mtu) =
        negotiatedMtu l.localMtu := by
  by_cases h : l.localMtu = 0
  · simp [proofData_length,hmtu,negotiatedMtu,h]
  · obtain ⟨-,-,hrest⟩ := r.proofData_fields (P := P) owner k (l.localMtu ≠ 0)
    rw [if_pos (by simp [proofData_length,h]),hrest,hr]
    have hsig : signalling (l.localMtu ≠ 0) (negotiatedMtu l.localMtu) =
        encodeSignalling (negotiatedMtu l.localMtu) ++ [] := by simp [signalling,h]
    rw [hsig,decodeMtu_encodeSignalling,negotiatedMtu,if_neg h,UInt32.and_assoc]
    rfl

theorem sessionKey_comm (hx : P.ExchangeCommutes) {l r : Link} (h : l.hash = r.hash) :
    l.sessionKey P (r.ephX25519Pub P) = r.sessionKey P (l.ephX25519Pub P) := by
  have hshared := hx l.ephX25519Prv.privateBytes r.ephX25519Prv.privateBytes
    l.ephX25519Prv.privateBytes_length r.ephX25519Prv.privateBytes_length
  simp only [sessionKey,ephX25519Pub,X25519PrivateKey.publicBytes,hshared,h]

end Link

end RNS
