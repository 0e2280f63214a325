import RTReticulum.Identity

/-! `destination.cpp` and `packet.cpp`: addresses, and the frames sent to them. -/
set_option autoImplicit false

namespace RNS

abbrev Table (V : Type) := Finmap fun _ : Bytes => V

/-- Registered under the truncated hash of its path; the generator is named by a number. -/
structure RequestHandler where
  path : Bytes
  pathHash : Bytes
  generator : Nat
  deriving DecidableEq

/-- The fields of `Destination::Object` that never change. Handles share the object; the
callbacks set on it later are kept elsewhere, under `obj`. -/
structure Destination where
  obj : Nat
  type : DestinationType
  direction : Direction
  identity : Option Identity
  hash : Bytes
  nameHash : Bytes

namespace Destination
variable (P : Platform)

def dot : UInt8 := 0x2E

/-- `aspects` is a C string that may be null. -/
def expandName (identity : Option Identity) (appName : Bytes) (aspects : Option Bytes) :
    Except Fault Bytes :=
  if dot ∈ appName then .error (.invalidArgument "Dots can't be used in app names")
  else
    let name := match aspects with
      | some (a :: as) => appName ++ dot :: a :: as
      | _ => appName
    match identity with
    | some id => .ok (name ++ dot :: id.hexhash)
    | none => .ok name

def nameHashOf (appName : Bytes) (aspects : Option Bytes) : Except Fault Bytes := do
  let name ← expandName none appName aspects
  return Bytes.left (fullHash P name) nameHashBytes

def hashOf (identity : Option Identity) (appName : Bytes) (aspects : Option Bytes) :
    Except Fault Bytes := do
  let addrMaterial ← nameHashOf P appName aspects
  match identity with
  | some id => return truncatedHash P (addrMaterial ++ id.hash)
  | none => return truncatedHash P addrMaterial

/-- The naming constructor. An IN destination that is not PLAIN makes an identity for
itself when it is given none. -/
def ofName (obj : Nat) (identity : Option Identity) (direction : Direction)
    (type : DestinationType) (appName : Bytes) (aspects : Option Bytes) (r : Rng) :
    Except Fault (Destination × Rng) :=
  if dot ∈ appName then .error (.invalidArgument "Dots can't be used in app names")
  else
    let makes := identity.isNone ∧ direction = .dirIn ∧ type ≠ .plain
    let fresh := Identity.createKeys P .blank r
    let own := if makes then some fresh.1 else identity
    let r := if makes then fresh.2 else r
    let fullaspects := aspects.getD [] ++ if makes then dot :: fresh.1.hexhash else []
    if own.isSome ∧ type = .plain then
      .error (.invalidArgument "PLAIN destination cannot hold an identity")
    else do
      let hash ← hashOf P own appName (some fullaspects)
      let nameHash ← nameHashOf P appName aspects
      return (⟨obj,type,direction,own,hash,nameHash⟩,r)

def ofHash (obj : Nat) (identity : Option Identity) (direction : Direction)
    (type : DestinationType) (precomputedHash : Bytes) : Except Fault Destination :=
  if identity.isSome ∧ type = .plain then
    .error (.invalidArgument "PLAIN destination cannot hold an identity")
  else do
    -- the app name and the aspects are both "unknown"
    let unknown : Bytes := [0x75,0x6E,0x6B,0x6E,0x6F,0x77,0x6E]
    let nameHash ← nameHashOf P unknown (some unknown)
    return ⟨obj,type,direction,identity,precomputedHash,nameHash⟩

def encrypt (d : Destination) (data : Bytes) (r : Rng) : Except Fault (Bytes × Rng) :=
  match d.type, d.identity with
  | .single, some id => id.encrypt P data r
  | _, _ => .ok (data,r)

def decrypt (d : Destination) (data : Bytes) : Except Fault Bytes :=
  match d.type, d.identity with
  | .plain, _ => .ok data
  | .single, some id => id.decrypt P data
  | _, _ => .ok []

def requestHandler (path : Bytes) (generator : Nat) : RequestHandler :=
  ⟨path,truncatedHash P path,generator⟩

def plainName (appName : Bytes) (aspects : Option Bytes) : Bytes :=
  match aspects with
  | some (a :: as) => appName ++ dot :: a :: as
  | _ => appName

def nameMaterial (name : Bytes) : Bytes := Bytes.left (fullHash P name) nameHashBytes

def ownAspects (aspects : Option Bytes) (id : Identity) : Bytes :=
  aspects.getD [] ++ dot :: id.hexhash

@[simp] theorem nameMaterial_length (name : Bytes) : (nameMaterial P name).length = 10 := by
  simp [nameMaterial,fullHash,nameHashBytes]

variable {P}

theorem expandName_plain {appName : Bytes} (h : dot ∉ appName) (aspects : Option Bytes) :
    expandName none appName aspects = .ok (plainName appName aspects) := by
  unfold expandName
  rw [if_neg h]
  rfl

theorem nameHashOf_eq {appName : Bytes} (h : dot ∉ appName) (aspects : Option Bytes) :
    nameHashOf P appName aspects = .ok (nameMaterial P (plainName appName aspects)) := by
  simp only [nameHashOf,expandName_plain h,ok_bind]
  rfl

theorem plainName_getD (appName : Bytes) (aspects : Option Bytes) :
    plainName appName (some (aspects.getD [])) = plainName appName aspects := by
  cases aspects <;> rfl

section
variable {obj : Nat} {direction : Direction} {type : DestinationType} {appName : Bytes}
  {aspects : Option Bytes} {r r' : Rng} {d : Destination}

/-- What a named destination is made of: the address hashes the bare name for an identity that
was supplied, and the name with its suffix for one that was made. -/
theorem ofName_eq {identity : Option Identity}
    (h : ofName P obj identity direction type appName aspects r = .ok (d,r')) :
    let fresh := (Identity.createKeys P .blank r).1
    d.type = type ∧ d.direction = direction ∧
      d.nameHash = nameMaterial P (plainName appName aspects) ∧
      (d.identity = identity ∧
          (∀ id, identity = some id → d.hash = truncatedHash P (d.nameHash ++ id.hash)) ∨
        identity = none ∧ d.identity = some fresh ∧ d.hash = truncatedHash P
          (nameMaterial P (plainName appName (some (ownAspects aspects fresh))) ++
            fresh.hash)) := by
  intro fresh
  unfold ofName at h
  split at h
  · cases h
  rename_i hdot
  simp only [hashOf,nameHashOf_eq hdot,ok_bind] at h
  by_cases hmakes : identity.isNone ∧ direction = .dirIn ∧ type ≠ .plain
  · simp only [if_pos hmakes] at h
    split at h
    · cases h
    cases h
    exact ⟨rfl,rfl,rfl,.inr ⟨Option.isNone_iff_eq_none.mp hmakes.1,rfl,rfl⟩⟩
  · simp only [if_neg hmakes,List.append_nil,plainName_getD] at h
    split at h
    · cases h
    obtain ⟨hash,hhash,h⟩ := bind_eq_ok.mp h
    cases h
    refine ⟨rfl,rfl,rfl,.inl ⟨rfl,fun id hid => ?_⟩⟩
    subst hid
    cases hhash
    rfl

theorem ofName_isSome {identity : Option Identity}
    (h : ofName P obj identity direction type appName aspects r = .ok (d,r')) :
    d.type = type ∧
      (d.identity.isSome ↔ identity.isSome ∨ direction = .dirIn ∧ type ≠ .plain) := by
  unfold ofName at h
  split at h
  · cases h
  by_cases hmakes : identity.isNone ∧ direction = .dirIn ∧ type ≠ .plain
  · simp only [if_pos hmakes] at h
    split at h
    · cases h
    obtain ⟨_,-,h⟩ := bind_eq_ok.mp h
    obtain ⟨_,-,h⟩ := bind_eq_ok.mp h
    cases h
    exact ⟨rfl,iff_of_true rfl (.inr hmakes.2)⟩
  · simp only [if_neg hmakes] at h
    split at h
    · cases h
    obtain ⟨_,-,h⟩ := bind_eq_ok.mp h
    obtain ⟨_,-,h⟩ := bind_eq_ok.mp h
    cases h
    refine ⟨rfl,(or_iff_left_of_imp fun hin => ?_).symm⟩
    cases identity with
    | none => exact absurd ⟨rfl,hin⟩ hmakes
    | some id => rfl

theorem ofHash_identity {identity : Option Identity} {hash : Bytes}
    (h : ofHash P obj identity direction type hash = .ok d) :
    d.type = type ∧ d.identity = identity := by
  unfold ofHash at h
  split at h
  · cases h
  · obtain ⟨nameHash,-,h⟩ := bind_eq_ok.mp h
    cases h
    exact ⟨rfl,rfl⟩

theorem ofName_supplied {id : Identity}
    (h : ofName P obj (some id) direction type appName aspects r = .ok (d,r')) :
    d.type = type ∧ d.direction = direction ∧ d.identity = some id ∧
      d.nameHash.length = 10 ∧ d.hash = truncatedHash P (d.nameHash ++ id.hash) := by
  obtain ⟨htype,hdir,hnh,⟨hid,hhash⟩ | ⟨hnone,-⟩⟩ := ofName_eq h
  · exact ⟨htype,hdir,hid,hnh ▸ nameMaterial_length P _,hhash id rfl⟩
  · cases hnone

end

end Destination

/-- `Packet::Object`, without the flags `_packed` and `_from_packed`, which nothing reads. -/
structure Packet where
  headerType : HeaderType
  transportType : TransportType
  destinationType : DestinationType
  packetType : PacketType
  context : Context
  contextFlag : ContextFlag
  flags : UInt8
  hops : UInt8
  destination : Option Destination
  destinationHash : Bytes
  transportId : Bytes
  data : Bytes
  raw : Bytes
  packetHash : Bytes

namespace Packet
variable (P : Platform)

def packFlags (h : HeaderType) (c : ContextFlag) (t : TransportType) (d : DestinationType)
    (p : PacketType) : UInt8 :=
  h.toByte <<< 6 ||| c.toByte <<< 5 ||| t.toByte <<< 4 ||| d.toByte <<< 2 ||| p.toByte

/-- The constructor for outgoing packets cuts the payload at the MDU. -/
def ofDestination (destination : Destination) (data : Bytes) (packetType : PacketType)
    (context : Context) (transportType : TransportType) : Packet where
  headerType := .header1
  transportType := transportType
  destinationType := destination.type
  packetType := packetType
  context := context
  contextFlag := .unset
  flags := packFlags .header1 .unset transportType destination.type packetType
  hops := 0
  destination := some destination
  destinationHash := []
  transportId := []
  data := if data.length > Reticulum.mdu then Bytes.resize data Reticulum.mdu else data
  raw := []
  packetHash := []

theorem ofDestination_data (d : Destination) (data : Bytes) (t : PacketType) (ctx : Context)
    (tt : TransportType) : (ofDestination d data t ctx tt).data = data.take Reticulum.mdu := by
  show (if _ then _ else _) = _
  split
  · exact Bytes.resize_of_le (by omega)
  · exact (List.take_of_length_le (by omega)).symm

/-- The hash covers neither the hops nor the upper half of the flags, nor the
transport id of a HEADER_2 frame. -/
def hashablePart (headerType : HeaderType) : Bytes → Bytes
  | flags :: _hops :: rest =>
    (flags &&& 0x0F) :: match headerType with
      | .header1 => rest
      | .header2 => rest.drop Reticulum.truncatedHashBytes
  | _ => []

def getHashablePart (p : Packet) : Bytes := hashablePart p.headerType p.raw

def frame (flags hops : UInt8) (destinationHash : Bytes) (context : Context) (data : Bytes) :
    Bytes :=
  [flags,hops] ++ destinationHash ++ [context] ++ data

theorem frame_cons (flags hops : UInt8) (dest : Bytes) (context : Context) (data : Bytes) :
    frame flags hops dest context data = flags :: hops :: (dest ++ context :: data) := by
  simp [frame]

theorem frame_length (flags hops : UInt8) (dest : Bytes) (context : Context) (data : Bytes) :
    (frame flags hops dest context data).length = dest.length+3+data.length := by
  simp [frame]
  omega

def pack (p : Packet) (r : Rng) : Except Fault (Packet × Rng) :=
  match p.destination with
  | none => .error (.logicError "Packet destination is required")
  | some destination => do
    let (ciphertext,r) ←
      if p.packetType = .data then destination.encrypt P p.data r else .ok (p.data,r)
    let raw := frame p.flags p.hops destination.hash p.context ciphertext
    return ({ p with
      destinationHash := destination.hash, raw := raw
      packetHash := fullHash P (hashablePart p.headerType raw) },r)

def hashOffset : HeaderType → Nat
  | .header1 => 2
  | .header2 => 18

def parsed (headerType : HeaderType) (raw : Bytes) : Packet where
  headerType := headerType
  transportType := TransportType.ofByte ((raw.getD 0 0 &&& 0x10) >>> 4)
  destinationType := DestinationType.ofByte ((raw.getD 0 0 &&& 0x0C) >>> 2)
  packetType := PacketType.ofByte (raw.getD 0 0 &&& 0x03)
  context := raw.getD (hashOffset headerType+16) 0
  contextFlag := ContextFlag.ofByte ((raw.getD 0 0 &&& 0x20) >>> 5)
  flags := raw.getD 0 0
  hops := raw.getD 1 0
  destination := none
  destinationHash := Bytes.mid raw (hashOffset headerType) 16
  transportId := if headerType = .header2 then Bytes.mid raw 2 16 else []
  data := Bytes.midFrom raw (hashOffset headerType+17)
  raw := raw
  packetHash := fullHash P (hashablePart headerType raw)

/-- `Packet(raw)` and then `unpack()`; `none` where that returns false. -/
def unpack (raw : Bytes) : Option Packet :=
  let headerType := HeaderType.ofByte ((raw.getD 0 0 &&& 0x40) >>> 6)
  if raw.length < 19 ∨ raw.length < hashOffset headerType+17 then none
  else some (parsed P headerType raw)

variable {P}

theorem unpack_some {raw : Bytes} {p : Packet} (h : unpack P raw = some p) :
    p.raw = raw ∧ p.hops = raw.getD 1 0 ∧ 19 ≤ raw.length := by
  simp only [unpack] at h
  split at h
  · cases h
  · cases h
    exact ⟨rfl,rfl,by omega⟩

theorem forall_byte {p : UInt8 → Prop} (h : ∀ n : Fin 256, p (UInt8.ofNat n)) (b : UInt8) :
    p b := by
  have hb := h ⟨b.toNat,b.toNat_lt⟩
  simpa using hb

theorem headerType_of_header1 {flags : UInt8} (h : flags &&& 0x40 = 0) :
    HeaderType.ofByte ((flags &&& 0x40) >>> 6) = .header1 := by
  rw [h]; rfl

theorem headerType_of_header2 {flags : UInt8} (h : flags &&& 0x40 ≠ 0) :
    HeaderType.ofByte ((flags &&& 0x40) >>> 6) = .header2 := by
  revert h
  exact forall_byte (p := fun f => f &&& 0x40 ≠ 0 →
    HeaderType.ofByte ((f &&& 0x40) >>> 6) = .header2) (by decide +kernel) flags

theorem packFlags_header1 (d : DestinationType) (p : PacketType) :
    packFlags .header1 .unset .broadcast d p &&& 0x40 = 0 := by
  cases d <;> cases p <;> rfl

theorem packFlags_packetType (d : DestinationType) (p : PacketType) :
    PacketType.ofByte (packFlags .header1 .unset .broadcast d p &&& 0x03) = p := by
  cases d <;> cases p <;> rfl

theorem pack_ofDestination (d : Destination) (data : Bytes) {t : PacketType}
    (ctx : Context) (tt : TransportType) (r : Rng) (ht : t ≠ .data)
    (hlen : data.length ≤ Reticulum.mdu) :
    ∃ p, (ofDestination d data t ctx tt).pack P r = .ok (p,r) ∧
      p.raw = frame (packFlags .header1 .unset tt d.type t) 0 d.hash ctx data ∧
      p.headerType = .header1 := by
  simp [pack,ofDestination,ht,Nat.not_lt.mpr hlen]

theorem pack_of_encrypt {p : Packet} {d : Destination} {c : Bytes} {r r' : Rng}
    (hd : p.destination = some d) (hp : p.packetType = .data)
    (henc : d.encrypt P p.data r = .ok (c,r')) :
    ∃ q, p.pack P r = .ok (q,r') ∧ q.raw = frame p.flags p.hops d.hash p.context c := by
  simp only [pack,hd,hp,if_true,henc,ok_bind,pure_eq_ok]
  exact ⟨_,rfl,rfl⟩

theorem pack_data {d : Destination} {data c : Bytes} {r r' : Rng}
    (henc : d.encrypt P data r = .ok (c,r')) (ctx : Context) (tt : TransportType)
    (hlen : data.length ≤ Reticulum.mdu) :
    ∃ p, (ofDestination d data .data ctx tt).pack P r = .ok (p,r') ∧
      p.raw = frame (packFlags .header1 .unset tt d.type .data) 0 d.hash ctx c := by
  have hdata : (ofDestination d data .data ctx tt).data = data := by
    rw [ofDestination_data,List.take_of_length_le hlen]
  exact pack_of_encrypt (p := ofDestination d data .data ctx tt) rfl rfl (hdata.symm ▸ henc)

/-- What a frame says, whichever header it has: the low half of its flags, its address,
its context and its payload. -/
structure Carries (p : Packet) (low : UInt8) (dest : Bytes) (ctx : Context) (payload : Bytes) :
    Prop where
  packetType : p.packetType = PacketType.ofByte (low &&& 0x03)
  destinationHash : p.destinationHash = dest
  context : p.context = ctx
  data : p.data = payload
  hashable : p.getHashablePart = (low &&& 0x0F) :: (dest ++ ctx :: payload)

theorem low_bits (f : UInt8) : f &&& 0x03 = (f &&& 0x0F) &&& 0x03 := by
  rw [UInt8.and_assoc]; rfl

theorem parsed_header1 (flags hops : UInt8) {dest data : Bytes} (context : Context)
    (hd : dest.length = 16) :
    (parsed P .header1 (flags :: hops :: (dest ++ context :: data))).Carries
      flags dest context data where
  packetType := rfl
  destinationHash := by simp [parsed,hashOffset,Bytes.mid,List.take_left' hd]
  context := by simp [parsed,hashOffset,List.getD,hd]
  data := by simp [parsed,hashOffset,Bytes.midFrom,List.drop_append,hd]
  hashable := rfl

theorem parsed_header2 (flags hops : UInt8) {tid dest data : Bytes} (context : Context)
    (ht : tid.length = 16) (hd : dest.length = 16) :
    (parsed P .header2 (flags :: hops :: (tid ++ (dest ++ context :: data)))).Carries
      flags dest context data where
  packetType := rfl
  destinationHash := by
    simp [parsed,hashOffset,Bytes.mid,List.drop_append,ht,List.take_left' hd]
  context := by simp [parsed,hashOffset,List.getD,List.getElem?_append,ht,hd]
  data := by
    have htid : List.drop 33 tid = [] := List.drop_of_length_le (by omega)
    have hdest : List.drop 17 dest = [] := List.drop_of_length_le (by omega)
    simp [parsed,hashOffset,Bytes.midFrom,List.drop_append,ht,hd,htid,hdest]
  hashable := by
    simp [getHashablePart,parsed,hashablePart,Reticulum.truncatedHashBytes,List.drop_left' ht]

theorem unpack_header1 {flags hops : UInt8} {dest data : Bytes} {context : Context}
    (hf : flags &&& 0x40 = 0) (hd : dest.length = 16) :
    unpack P (flags :: hops :: (dest ++ context :: data)) =
      some (parsed P .header1 (flags :: hops :: (dest ++ context :: data))) := by
  have hlen : (flags :: hops :: (dest ++ context :: data)).length = data.length+19 := by
    simp; omega
  simp only [unpack,List.getD_cons_zero,headerType_of_header1 hf,hashOffset,hlen]
  rw [if_neg (by omega)]

theorem unpack_header2 {flags hops : UInt8} {tid dest data : Bytes} {context : Context}
    (hf : flags &&& 0x40 ≠ 0) (ht : tid.length = 16) (hd : dest.length = 16) :
    unpack P (flags :: hops :: (tid ++ (dest ++ context :: data))) =
      some (parsed P .header2 (flags :: hops :: (tid ++ (dest ++ context :: data)))) := by
  have hlen : (flags :: hops :: (tid ++ (dest ++ context :: data))).length =
      data.length+35 := by simp; omega
  simp only [unpack,List.getD_cons_zero,headerType_of_header2 hf,hashOffset,hlen]
  rw [if_neg (by omega)]

/-- What relays may do to a frame: nothing, change the hop byte, and put a HEADER_1 frame in
HEADER_2 form behind a transport id, with any upper half of the flags. -/
inductive Rewritten : Bytes → Bytes → Prop where
  | same (raw : Bytes) : Rewritten raw raw
  | hops (flags hops hops' : UInt8) (rest : Bytes) :
      Rewritten (flags :: hops :: rest) (flags :: hops' :: rest)
  | header2 (flags hops flags' hops' : UInt8) (tid rest : Bytes) :
      flags &&& 0x40 = 0 → flags' &&& 0x40 ≠ 0 → flags' &&& 0x0F = flags &&& 0x0F →
      tid.length = 16 → Rewritten (flags :: hops :: rest) (flags' :: hops' :: (tid ++ rest))

theorem Rewritten.trans {a b c : Bytes} (h : Rewritten a b) (k : Rewritten b c) :
    Rewritten a c := by
  cases h with
  | same => exact k
  | hops flags hops hops' rest =>
    cases k with
    | same => exact .hops flags hops hops' rest
    | hops _ _ hops'' _ => exact .hops flags hops hops'' rest
    | header2 _ _ flags' hops'' tid _ h₁ h₂ h₃ ht =>
      exact .header2 flags hops flags' hops'' tid rest h₁ h₂ h₃ ht
  | header2 flags hops flags' hops' tid rest h₁ h₂ h₃ ht =>
    cases k with
    | same => exact .header2 flags hops flags' hops' tid rest h₁ h₂ h₃ ht
    | hops _ _ hops'' _ => exact .header2 flags hops flags' hops'' tid rest h₁ h₂ h₃ ht
    | header2 _ _ _ _ _ _ h₁' => exact absurd h₁' h₂

theorem Rewritten.getHashablePart {raw raw' : Bytes} {p p' : Packet} (h : Rewritten raw raw')
    (hp : Packet.unpack P raw = some p) (hp' : Packet.unpack P raw' = some p') :
    p'.getHashablePart = p.getHashablePart := by
  simp only [Packet.unpack] at hp hp'
  split at hp
  · cases hp
  split at hp'
  · cases hp'
  cases hp; cases hp'
  cases h with
  | same => rfl
  | hops flags hops hops' rest =>
    simp only [List.getD_cons_zero,Packet.getHashablePart,parsed]
    cases HeaderType.ofByte ((flags &&& 0x40) >>> 6) <;> rfl
  | header2 flags hops flags' hops' tid rest hf hf' hlow ht =>
    simp only [List.getD_cons_zero,headerType_of_header1 hf,headerType_of_header2 hf',parsed,
      Packet.getHashablePart,hashablePart,hlow]
    rw [List.drop_left' ht]

theorem unpack_packetHash {raw : Bytes} {p : Packet} (h : unpack P raw = some p) :
    p.packetHash = fullHash P p.getHashablePart := by
  simp only [unpack] at h
  split at h
  · cases h
  · cases h; rfl

theorem Rewritten.packetHash {raw raw' : Bytes} {p p' : Packet} (h : Rewritten raw raw')
    (hp : Packet.unpack P raw = some p) (hp' : Packet.unpack P raw' = some p') :
    p'.packetHash = p.packetHash := by
  rw [unpack_packetHash hp,unpack_packetHash hp',h.getHashablePart hp hp']

theorem Rewritten.unpack {flags hops : UInt8} {dest data raw : Bytes} {context : Context}
    (hf : flags &&& 0x40 = 0) (hd : dest.length = 16)
    (h : Rewritten (flags :: hops :: (dest ++ context :: data)) raw) :
    ∃ header, Packet.unpack P raw = some (parsed P header raw) ∧
      (parsed P header raw).Carries flags dest context data := by
  cases h with
  | same => exact ⟨_,unpack_header1 hf hd,parsed_header1 flags hops context hd⟩
  | hops _ _ hops' _ => exact ⟨_,unpack_header1 hf hd,parsed_header1 flags hops' context hd⟩
  | header2 _ _ flags' hops' tid _ _ hf' hlow ht =>
    have hc : (parsed P .header2 (flags' :: hops' :: (tid ++ (dest ++ context :: data)))).Carries
        flags' dest context data := parsed_header2 flags' hops' context ht hd
    refine ⟨_,unpack_header2 hf' ht hd,?_,hc.destinationHash,hc.context,hc.data,?_⟩
    · rw [hc.packetType,low_bits flags',hlow,← low_bits]
    · rw [hc.hashable,hlow]

end Packet

end RNS
