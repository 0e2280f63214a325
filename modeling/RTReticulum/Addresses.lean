import RTReticulum.Relays
import RTReticulum.Simulation

/-! Addresses and the announces that have to prove them: which destinations announce an
address that their own announce is bound to, and which announces stay as they were signed. -/
set_option autoImplicit false

namespace RNS

def Collide (h : Bytes → Bytes) (a b : Bytes) : Prop := a ≠ b ∧ h a = h b

theorem eq_or_collide {h : Bytes → Bytes} {a b : Bytes} (heq : h a = h b) :
    a = b ∨ Collide h a b := by
  by_cases hab : a = b
  · exact .inl hab
  · exact .inr ⟨hab,heq⟩

namespace Destination

/-- SHA-256, cut as it is here, does not tell the name with the hash of `id` at its end from
the name without it, or the address from what a receiver computes. -/
def NamesCollide (P : Platform) (appName : Bytes) (aspects : Option Bytes) (id : Identity) :
    Prop :=
  let bare := plainName appName aspects
  let full := plainName appName (some (ownAspects aspects id))
  Collide (nameMaterial P) full bare ∨
    Collide (truncatedHash P) (nameMaterial P full ++ id.hash) (nameMaterial P bare ++ id.hash)

theorem plainName_own (appName : Bytes) (aspects : Option Bytes) (id : Identity) :
    plainName appName (some (ownAspects aspects id)) ≠ plainName appName aspects := by
  intro h
  have hlen := congrArg List.length h
  cases aspects with
  | none => simp [plainName,ownAspects] at hlen
  | some as =>
    cases as with
    | nil => simp [plainName,ownAspects] at hlen
    | cons b bs => simp [plainName,ownAspects] at hlen

end Destination

namespace Announce
variable {P : Platform}

def Bound (P : Platform) (packet : Packet) : Prop :=
  truncatedHash P ((ofData P packet.data).nameHash ++ (ofData P packet.data).identity.hash) =
    packet.destinationHash

instance (packet : Packet) : Decidable (Bound P packet) := inferInstanceAs (Decidable (_ = _))

theorem Genuine.isBound {packet : Packet} {a : Announce} (h : Genuine P packet a) :
    Bound P packet := by
  have hfields := h.fields
  subst hfields
  rw [Bound,h.bound]
  simp [ofData]

theorem ofData_take {pk nh rest : Bytes} {m : Nat} (hpk : pk.length = 64)
    (hnh : nh.length = 10) (hm : 74 ≤ m) :
    (ofData P ((pk ++ nh ++ rest).take m)).nameHash = nh ∧
      (ofData P ((pk ++ nh ++ rest).take m)).identity.hash = truncatedHash P pk := by
  have hkey : ((pk ++ nh ++ rest).take m).take 64 = pk := by
    rw [List.take_take,Nat.min_eq_left (by omega),List.append_assoc,List.take_left' hpk]
  have hname : (((pk ++ nh ++ rest).take m).drop 64).take 10 = nh := by
    rw [List.drop_take,List.append_assoc,List.drop_left' hpk,List.take_take,
      Nat.min_eq_left (by omega),List.take_left' hnh]
  exact ⟨hname,(Identity.loadPublicKey_hash _ _).trans (congrArg _ hkey)⟩

/-- What a receiver checks of the address in an announce is what the destination says of its
own address, however much of the payload the packet takes. -/
theorem bound_announceFrame {d : Destination} {app raw : Bytes} {r r' : Rng}
    (h : announceFrame P d app r = .ok (raw,r')) {id : Identity} (hid : d.identity = some id)
    (hpk : id.getPublicKey.length = 64) (hkey : id.hash = truncatedHash P id.getPublicKey)
    (hdest : d.hash.length = 16) (hnh : d.nameHash.length = 10) :
    ∃ packet, Packet.unpack P raw = some packet ∧
      (Bound P packet ↔ d.hash = truncatedHash P (d.nameHash ++ id.hash)) := by
  obtain ⟨-,id',k,hid',-,rfl⟩ := announceFrame_made h
  cases hid.symm.trans hid'
  rw [Packet.frame_cons]
  refine ⟨_,Packet.unpack_header1 (Packet.packFlags_header1 _ _) hdest,?_⟩
  generalize hdata : (announceData P d id k (r.random randomHashBytes).1 app).take
    Reticulum.mdu = data
  have hcar := @Packet.parsed_header1 P (Packet.packFlags .header1 .unset .broadcast d.type
    .announce) 0 d.hash data Context.none hdest
  rw [Bound,hcar.data,hcar.destinationHash,← hdata]
  simp only [announceData,List.append_assoc]
  rw [← List.append_assoc id.getPublicKey]
  obtain ⟨hname,hident⟩ := @ofData_take P id.getPublicKey d.nameHash
    ((r.random randomHashBytes).1 ++ (k.sign P (signedData d.hash id.getPublicKey d.nameHash
      (r.random randomHashBytes).1 app) ++ app)) Reticulum.mdu hpk hnh (by decide)
  rw [hname,hident,← hkey]
  exact eq_comm

end Announce

/-- The naming constructor makes an address that its announce proves exactly when the identity
is given to it, unless SHA-256 collides. -/
theorem naming_bound_iff {P : Platform} {obj : Nat} {identity : Option Identity}
    {direction : Direction} {type : DestinationType} {appName : Bytes} {aspects : Option Bytes}
    {r r' : Rng} {d : Destination}
    (h : Destination.ofName P obj identity direction type appName aspects r = .ok (d,r'))
    {id : Identity} (hid : d.identity = some id) :
    let proves := identity.isSome ∨ Destination.NamesCollide P appName aspects
      (Identity.createKeys P .blank r).1
    (d.hash = truncatedHash P (d.nameHash ++ id.hash) ↔ proves) ∧
    (id.getPublicKey.length = 64 → id.hash = truncatedHash P id.getPublicKey →
      ∀ app s raw s', announceFrame P d app s = .ok (raw,s') →
        ∃ packet, Packet.unpack P raw = some packet ∧ (Announce.Bound P packet ↔ proves)) := by
  intro proves
  obtain ⟨-,-,hnh,hmade⟩ := Destination.ofName_eq h
  have hnl : d.nameHash.length = 10 := hnh ▸ Destination.nameMaterial_length P _
  have hboth : d.hash.length = 16 ∧
      (d.hash = truncatedHash P (d.nameHash ++ id.hash) ↔ proves) := by
    obtain ⟨hsame,hhash⟩ | ⟨hnone,hfresh,hhash⟩ := hmade
    · have hsome := hsame.symm.trans hid
      have hhash := hhash id hsome
      exact ⟨by rw [hhash,truncatedHash_length],fun _ => .inl (by rw [hsome]; rfl),fun _ => hhash⟩
    · -- the two names differ, so only a collision makes the two hashes agree
      cases hid.symm.trans hfresh
      refine ⟨by rw [hhash,truncatedHash_length],?_⟩
      rw [hhash,hnh]
      constructor
      · intro heq
        right
        obtain hsame | hcollide := eq_or_collide heq
        · exact .inl ⟨Destination.plainName_own _ _ _,List.append_cancel_right hsame⟩
        · exact .inr hcollide
      · intro hproves
        obtain hsome | ⟨-,hsame⟩ | ⟨-,hsame⟩ := hproves
        · simp [hnone] at hsome
        · exact congrArg (fun m => truncatedHash P (m ++ _)) hsame
        · exact hsame
  obtain ⟨hlen,hiff⟩ := hboth
  refine ⟨hiff,fun hpk hkey app s raw s' hframe => ?_⟩
  obtain ⟨packet,hp,hbound⟩ := Announce.bound_announceFrame hframe hid hpk hkey hlen hnl
  exact ⟨packet,hp,hbound.trans hiff⟩

theorem naming_bound_supplied : ∃ d r', Destination.ofName Sample.platform 0
    (some Sample.identity) .dirIn .single [0x61] (some [0x62]) (Sample.rng 1) = .ok (d,r') ∧
    d.hash = truncatedHash Sample.platform (d.nameHash ++ Sample.identity.hash) := by
  obtain ⟨x,hx,-⟩ := ok_of_any (x := Destination.ofName Sample.platform 0 (some Sample.identity)
    .dirIn .single [0x61] (some [0x62]) (Sample.rng 1)) (q := fun _ => true) rfl
  have hid := (Destination.ofName_supplied hx).2.2.1
  exact ⟨x.1,x.2,hx,(naming_bound_iff hx hid).1.mpr (.inl rfl)⟩

/-- A destination with an identity of its own: nobody believes its announce. -/
theorem generated_address_unproven : ∃ x id announced packet,
    Destination.ofName Sample.platform 0 none .dirIn .single [0x61] (some [0x62])
      (Sample.rng 1) = .ok x ∧ x.1.identity = some id ∧
    x.1.hash ≠ truncatedHash Sample.platform (x.1.nameHash ++ id.hash) ∧
    announceFrame Sample.platform x.1 [] x.2 = .ok announced ∧
    Packet.unpack Sample.platform announced.1 = some packet ∧
    ¬ Announce.Bound Sample.platform packet ∧
    Announce.check Sample.platform packet = none := by
  obtain ⟨x,hx,hq⟩ := ok_of_any (x := Destination.ofName Sample.platform 0 none .dirIn .single
    [0x61] (some [0x62]) (Sample.rng 1)) (q := fun x => x.1.identity.any fun id =>
      x.1.hash ≠ truncatedHash Sample.platform (x.1.nameHash ++ id.hash) ∧
      (announceFrame Sample.platform x.1 [] x.2).toOption.any fun announced =>
        (Packet.unpack Sample.platform announced.1).any fun packet =>
          ¬ Announce.Bound Sample.platform packet)
    (by decide +kernel)
  obtain ⟨id,hid,hq⟩ := (Option.any_eq_true _ _).mp hq
  obtain ⟨hne,hq⟩ := of_decide_eq_true hq
  obtain ⟨announced,hannounced,hq⟩ := ok_of_any hq
  obtain ⟨packet,hp,hq⟩ := (Option.any_eq_true _ _).mp hq
  have hbound : ¬ Announce.Bound Sample.platform packet := of_decide_eq_true hq
  refine ⟨x,id,announced,packet,hx,hid,hne,hannounced,hp,hbound,?_⟩
  cases hcheck : Announce.check Sample.platform packet with
  | none => rfl
  | some a => exact absurd (Announce.check_iff.mp hcheck).isBound hbound

/-- If `announce` returns a frame, which is the one it emits, the payload of it is the payload
that was signed, whole. -/
def AnnouncesWhole (P : Platform) (d : Destination) (app : Bytes) (r : Rng) : Prop :=
  ∀ raw r', announceFrame P d app r = .ok (raw,r') →
    ∃ id k, d.identity = some id ∧ id.sigPrv = some k ∧ raw = Packet.frame
      (Packet.packFlags .header1 .unset .broadcast d.type .announce) 0 d.hash Context.none
        (announceData P d id k (r.random randomHashBytes).1 app)

/-- Above 316 bytes of application data an announce is whole only where there is none: with no
signing key it fails. The other way out needs a public key or a name hash that is too short. -/
theorem announces_whole_iff {P : Platform} {d : Destination} (htype : d.type = .single)
    (hdir : d.direction = .dirIn) {app : Bytes} (hlong : 316 < app.length) (r : Rng) :
    (AnnouncesWhole P d app r ↔ ∀ id, d.identity = some id → id.sigPrv = none ∨
      id.getPublicKey.length + d.nameHash.length + 74 + app.length ≤ Reticulum.mdu) ∧
    ((∀ id, d.identity = some id → id.getPublicKey.length = 64) → d.nameHash.length = 10 →
      (AnnouncesWhole P d app r ↔ ∀ id, d.identity = some id → id.sigPrv = none)) := by
  have hiff : AnnouncesWhole P d app r ↔ ∀ id, d.identity = some id → id.sigPrv = none ∨
      id.getPublicKey.length + d.nameHash.length + 74 + app.length ≤ Reticulum.mdu := by
    constructor
    · intro hwhole id hid
      cases hk : id.sigPrv with
      | none => exact .inl rfl
      | some k =>
        right
        obtain ⟨raw,r',hframe⟩ := announceFrame_ok (P := P) htype hdir hid hk app r
        obtain ⟨id₁,k₁,hid₁,hk₁,hraw⟩ := hwhole raw r' hframe
        obtain ⟨-,id₂,k₂,hid₂,hk₂,hcut⟩ := announceFrame_made hframe
        cases hid.symm.trans hid₁
        cases hid.symm.trans hid₂
        cases hk₁.symm.trans hk₂
        have hsame := List.append_cancel_left (hcut.symm.trans hraw)
        rw [← announceData_length P d id k₁ r app]
        exact List.take_eq_self_iff _ |>.mp hsame
    · intro hfits raw r' hframe
      obtain ⟨-,id,k,hid,hk,hcut⟩ := announceFrame_made hframe
      refine ⟨id,k,hid,hk,?_⟩
      obtain hnone | hlen := hfits id hid
      · cases hk.symm.trans hnone
      · rw [← announceData_length P d id k r app] at hlen
        rw [hcut,List.take_of_length_le hlen]
  refine ⟨hiff,fun hpk hnh => hiff.trans (forall₂_congr fun id hid => ?_)⟩
  refine or_iff_left ?_
  rw [hpk id hid,hnh]
  show ¬ _ ≤ 464
  omega

theorem announces_whole_unsigned : AnnouncesWhole Sample.platform
    { Sample.outDestination with direction := .dirIn } (List.replicate 317 0) (Sample.rng 4) := by
  have hlong : 316 < (List.replicate 317 (0 : UInt8)).length := by
    rw [List.length_replicate]; omega
  refine (announces_whole_iff rfl rfl hlong (Sample.rng 4)).1.mpr fun id hid => ?_
  cases hid
  exact .inl rfl

/-- One byte too many: the frame ends before the signed data does, and nobody believes it. -/
theorem announce_cut : ∃ x packet,
    announceFrame Sample.platform Sample.destination (List.replicate 317 0) (Sample.rng 4) =
      .ok x ∧ Packet.unpack Sample.platform x.1 = some packet ∧ packet.data.length = 464 ∧
    Announce.check Sample.platform packet = none ∧
    ¬ AnnouncesWhole Sample.platform Sample.destination (List.replicate 317 0) (Sample.rng 4) := by
  obtain ⟨x,hx,hq⟩ := ok_of_any (x := announceFrame Sample.platform Sample.destination
    (List.replicate 317 0) (Sample.rng 4)) (q := fun x => x.1.length = 483 ∧
      (Packet.unpack Sample.platform x.1).any fun packet => packet.data.length = 464 ∧
        (Announce.check Sample.platform packet).isNone) (by decide +kernel)
  obtain ⟨hlen,hq⟩ := of_decide_eq_true hq
  obtain ⟨packet,hp,hq⟩ := (Option.any_eq_true _ _).mp hq
  obtain ⟨hdata,hcheck⟩ := of_decide_eq_true hq
  refine ⟨x,packet,hx,hp,hdata,Option.isNone_iff_eq_none.mp hcheck,fun hwhole => ?_⟩
  obtain ⟨id,k,hid,-,hraw⟩ := hwhole x.1 x.2 hx
  have hid' : Sample.identity = id := Option.some.inj hid
  have hpk := Sample.identity_keyed.getPublicKey_length
  have hnh : Sample.destination.nameHash.length = 10 := by
    simp [Sample.destination,Sample.hash_length]
  have hhash : Sample.destination.hash.length = 16 := truncatedHash_length _ _
  rw [hraw,← hid'] at hlen
  simp only [Packet.frame,List.length_append,announceData_length,hpk,hnh,hhash,
    List.length_replicate] at hlen
  simp at hlen

end RNS
