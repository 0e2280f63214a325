import RTReticulum.Delivery
import RTReticulum.Paths

/-! `Identity::recall`: what a node knows of a destination from its announces, and where a packet
goes that is encrypted with it. -/
set_option autoImplicit false

namespace RNS

section
variable (P : Platform)

/-- `Identity::recall`; a null handle is `none`. -/
def Node.recall (destinationHash : Bytes) (n : Node) : Option Identity :=
  match n.knownDestinations.lookup destinationHash with
  | none => none
  | some known =>
    some { Identity.loadPublicKey P .blank known.publicKey with appData := known.appData }

def Node.KnownGenuine (n : Node) : Prop :=
  ∀ hash known, n.knownDestinations.lookup hash = some known → ∃ iface packet a,
    n.Heard P iface hash packet a ∧ known = ⟨packet.packetHash,a.publicKey,a.appData⟩

def Collision (x y : Bytes) : Prop := x ≠ y ∧ truncatedHash P x = truncatedHash P y

end

section
variable {P : Platform} {guard : Op → Node → Prop}

theorem Node.KnownGenuine.mono {n m : Node} (h : n.KnownGenuine P)
    (hknown : m.knownDestinations = n.knownDestinations) (hlog : n.log ⊆ m.log) :
    m.KnownGenuine P := by
  intro hash known hk
  obtain ⟨iface,packet,a,hheard,heq⟩ := h hash known (hknown ▸ hk)
  exact ⟨iface,packet,a,hheard.mono hlog,heq⟩

theorem Node.KnownGenuine.believe {n : Node} {packet : Packet} {a : Announce}
    {iface : Option Nat} (h : n.KnownGenuine P)
    (hheard : n.Heard P iface packet.destinationHash packet a) :
    (n.believe packet a iface).KnownGenuine P := by
  intro hash known hk
  by_cases hh : hash = packet.destinationHash
  · subst hh
    have hins := Finmap.lookup_insert (a := packet.destinationHash)
      (b := (⟨packet.packetHash,a.publicKey,a.appData⟩ : KnownDestination)) n.knownDestinations
    exact ⟨iface,packet,a,hheard.mono fun _ h => h,(Option.some.inj (hins.symm.trans hk)).symm⟩
  · have hk' : n.knownDestinations.lookup hash = some known :=
      (Finmap.lookup_insert_of_ne _ hh).symm.trans hk
    obtain ⟨via,q,b,hq,heq⟩ := h hash known hk'
    exact ⟨via,q,b,hq.mono fun _ h => h,heq⟩

theorem Update.knownDestinations {o : Op} {t n m : Node} (h : Update P o t n m) :
    m.knownDestinations = n.knownDestinations := by
  cases h with
  | tables h => exact h.knownDestinations
  | unlinked _ =>
    unfold Node.deregisterLink
    split <;> rfl
  | requested _ _ _ | validated _ _ _ _ => exact Node.registerLink_knownDestinations _ _
  | proved _ _ _ _ _ _ _ _ =>
    unfold Node.noteEstablished
    split <;> rfl
  | _ => rfl

theorem Update.log_subset {o : Op} {t n m : Node} (h : Update P o t n m) : n.log ⊆ m.log := by
  obtain ⟨new,hlog,-⟩ := h.events
  rw [hlog]
  exact fun _ he => List.mem_append_right _ he

theorem Runs.knownGenuine {n m : Node} (h : Runs P guard n m) :
    n.KnownGenuine P → m.KnownGenuine P := by
  refine Runs.invariant (Node.KnownGenuine P) (fun _ _ h => h.mono rfl fun _ h => h)
    (fun _ h => h.mono rfl fun _ h => List.mem_cons_of_mem _ h) (fun _ hp ht hu hn => ?_)
    (fun _ _ hu hn => hn.mono hu.knownDestinations hu.log_subset) h
  cases hu with
  | heard _ => exact hn.mono rfl fun _ h => h
  | believed _ ha => exact hn.believe ⟨⟨_,List.mem_cons_self,hp⟩,ht,rfl,ha⟩
  | announced _ | relayed _ | relaySent _ =>
    exact hn.mono rfl fun _ h => List.mem_cons_of_mem _ h

theorem Destination.ofHash_fields {obj : Nat} {identity : Option Identity}
    {direction : Direction} {type : DestinationType} {hash : Bytes} {d : Destination}
    (h : Destination.ofHash P obj identity direction type hash = .ok d) :
    d.type = type ∧ d.hash = hash ∧ d.identity = identity := by
  unfold Destination.ofHash at h
  split at h
  · cases h
  · obtain ⟨nameHash,-,h⟩ := bind_eq_ok.mp h
    cases h
    exact ⟨rfl,rfl,rfl⟩

/-- An announce for the address of a destination has its key in it, or it shows two byte strings
with one hash: names with hashed keys, or keys. -/
theorem Announce.Genuine.key {packet : Packet} {a : Announce} (h : a.Genuine P packet)
    {d : Destination} {id : Identity} (hnh : d.nameHash.length = 10) (hkeyed : id.Keyed P)
    (hhash : d.hash = truncatedHash P (d.nameHash ++ id.hash))
    (hdest : packet.destinationHash = d.hash) :
    a.publicKey = id.getPublicKey ∨
      Collision P (a.nameHash ++ truncatedHash P a.publicKey) (d.nameHash ++ id.hash) ∨
      Collision P a.publicKey id.getPublicKey := by
  have hsame : truncatedHash P (a.nameHash ++ truncatedHash P a.publicKey) =
      truncatedHash P (d.nameHash ++ id.hash) := by
    rw [← h.bound,hdest,hhash]
  by_cases hnames : a.nameHash ++ truncatedHash P a.publicKey = d.nameHash ++ id.hash
  · have hlen : a.nameHash.length = d.nameHash.length := by
      have hlong : 148 ≤ packet.data.length := h.long
      rw [hnh,h.fields]
      simp only [ofData,Bytes.mid,List.length_take,List.length_drop]
      omega
    have hkeys := (List.append_inj hnames hlen).2
    rw [hkeyed.hash] at hkeys
    by_cases hpk : a.publicKey = id.getPublicKey
    · exact .inl hpk
    · exact .inr (.inr ⟨hpk,hkeys⟩)
  · exact .inr (.inl ⟨hnames,hsame⟩)

theorem Node.KnownGenuine.recall {n : Node} (h : n.KnownGenuine P) {hash : Bytes} {rid : Identity}
    (hrec : n.recall P hash = some rid) : ∃ iface packet a, n.Heard P iface hash packet a ∧
      rid.Holds P a.publicKey ∧ rid.appData = a.appData := by
  unfold Node.recall at hrec
  split at hrec
  · cases hrec
  rename_i known hlookup
  cases hrec
  obtain ⟨iface,packet,a,hheard,rfl⟩ := h hash known hlookup
  have hholds := Identity.loadPublicKey_holds (P := P) .blank a.publicKey
  exact ⟨iface,packet,a,hheard,⟨rfl,rfl,rfl,rfl,hholds.hash⟩,rfl⟩

theorem packed_decrypts (hx : P.ExchangeCommutes) (hc : P.CbcInverts) {d out : Destination}
    {id sender : Identity} (htype : d.type = .single) (hid : d.identity = some id)
    (hkeyed : id.Keyed P) (hlen : d.hash.length = 16) (hot : out.type = .single)
    (hoh : out.hash = d.hash) (hoi : out.identity = some sender)
    (hsender : sender.Holds P id.getPublicKey) {pt : Bytes} (hle : pt.length ≤ 464) (r : Rng) :
    ∃ p r', (Packet.ofDestination out pt .data Context.none .broadcast).pack P r = .ok (p,r') ∧
      ∀ raw, Packet.Rewritten p.raw raw → ∃ packet, Packet.unpack P raw = some packet ∧
        packet.packetType = .data ∧ packet.destinationHash = d.hash ∧
        d.decrypt P packet.data = .ok pt := by
  obtain ⟨p,c,r',hpack,hraw,hdec⟩ := pack_encrypted hx hc hot hoi hkeyed hsender hle r
  refine ⟨p,r',hpack,fun raw hrel => ?_⟩
  rw [hraw,hoh,Packet.frame_cons] at hrel
  obtain ⟨header,hunpack,hcar⟩ := Packet.Rewritten.unpack (P := P) rfl hlen hrel
  refine ⟨_,hunpack,hcar.packetType.trans rfl,hcar.destinationHash,?_⟩
  rw [hcar.data]
  simp only [Destination.decrypt,htype,hid]
  exact hdec

/-- Whatever announces a node has received, genuine, forged, replayed or for other destinations:
what it recalls for an address is the public key and the application data of one of them, which
was for this address. A packet that it encrypts with it for the owner of the address reaches the
callback of the owner, once; unless that announce shows a collision of hashes. -/
theorem recalled_reaches (hx : P.ExchangeCommutes) (hc : P.CbcInverts) {n : Node}
    (hn : Reachable P n) {hash : Bytes} {rid : Identity} (hrec : n.recall P hash = some rid) :
    ∃ (raw : Bytes) (iface : Option Nat) (packet : Packet) (a : Announce),
      .rx raw iface ∈ n.log ∧ Packet.unpack P raw = some packet ∧
      packet.packetType = .announce ∧ packet.destinationHash = hash ∧ a.Genuine P packet ∧
      rid.Holds P a.publicKey ∧ rid.appData = a.appData ∧
      ∀ (d : Destination) (id : Identity), d.hash = hash → d.type = .single →
        d.identity = some id → id.Keyed P → d.nameHash.length = 10 →
        d.hash = truncatedHash P (d.nameHash ++ id.hash) →
      Collision P (a.nameHash ++ truncatedHash P a.publicKey) (d.nameHash ++ id.hash) ∨
        Collision P a.publicKey id.getPublicKey ∨
        ∀ obj out, Destination.ofHash P obj (some rid) .dirOut .single hash = .ok out →
        ∀ (pt : Bytes) (r : Rng), 1 ≤ pt.length → pt.length ≤ 464 → ∃ p r',
          (Packet.ofDestination out pt .data Context.none .broadcast).pack P r = .ok (p,r') ∧
          ∀ (m : Node) (cb : Nat), m.destinations.lookup hash = some d →
            m.packetCallback d.obj = some cb → ∀ sent, Packet.Rewritten p.raw sent →
            ∀ env iface, ∃ packet u, m.inbound P env sent iface = .ok u ∧
              Node.CallsOut env [.receive cb d pt packet]
                { m with log := .rx sent iface :: m.log } u := by
  obtain ⟨r₀,hrun⟩ := hn
  have hknown := hrun.knownGenuine fun _ _ h => nomatch (Finmap.lookup_empty _).symm.trans h
  obtain ⟨iface,packet,a,hheard,hsender,happ⟩ := hknown.recall hrec
  obtain ⟨raw,hrx,hp⟩ := hheard.received
  refine ⟨raw,iface,packet,a,hrx,hp,hheard.packetType,hheard.destinationHash,hheard.genuine,hsender,
    happ,?_⟩
  rintro d id rfl htype hid hkeyed hnh hhash
  rcases hheard.genuine.key hnh hkeyed hhash hheard.destinationHash with hkey | hcoll | hcoll
  · refine .inr (.inr fun obj out hout pt r hpos hle => ?_)
    rw [hkey] at hsender
    obtain ⟨hot,hoh,hoi⟩ := Destination.ofHash_fields hout
    have hlen : d.hash.length = 16 := by rw [hhash]; exact truncatedHash_length P _
    obtain ⟨p,r',hpack,hreach⟩ := packed_decrypts hx hc htype hid hkeyed hlen hot hoh hoi hsender
      hle r
    refine ⟨p,r',hpack,fun m cb hreg hcb sent hsent env iface => ?_⟩
    obtain ⟨packet,hunpack,ht,hdest,hdec⟩ := hreach sent hsent
    have hne : pt ≠ [] := List.length_pos_iff.mp hpos
    obtain ⟨u,hin,hcalls⟩ := inbound_received hunpack ht (hdest ▸ hreg) hdec hne env iface
    rw [hcb] at hcalls
    exact ⟨packet,u,hin,hcalls⟩
  · exact .inl hcoll
  · exact .inr (.inl hcoll)

end

theorem recalled_reaches_sample : ∃ (n : Node) (rid : Identity) (raw : Bytes) (packet : Packet)
    (a : Announce) (p : Packet), n.recall Sample.platform Sample.destination.hash = some rid ∧
    (∃ iface, .rx raw iface ∈ n.log) ∧ Packet.unpack Sample.platform raw = some packet ∧
    rid.Holds Sample.platform a.publicKey ∧ a.publicKey = Sample.identity.getPublicKey ∧
    rid.appData = [0x2A] ∧ ∃ (m u : Node) (q : Packet),
      m.inbound Sample.platform quiet p.raw none = .ok u ∧
      u.log = [.receive 5 Sample.destination [7] q,.rx p.raw none] := by
  obtain ⟨n,hn,hq⟩ := reachable_of_endsIn Sample.platform
    [.inbound (Sample.announceFrame 4 [0x2A]) (some 7)] (Sample.rng 5)
    (fun n => (n.recall Sample.platform Sample.destination.hash).any fun rid : Identity =>
      decide (rid.appData = [0x2A]) && (n.log.filterMap Event.raw?).all fun raw =>
        (Packet.unpack Sample.platform raw).all fun packet =>
        (Announce.check Sample.platform packet).all fun a : Announce =>
          decide (a.publicKey = Sample.identity.getPublicKey ∧
            a.nameHash = Sample.destination.nameHash))
    (by decide +kernel)
  obtain ⟨rid,hrec,hq⟩ := (Option.any_eq_true _ _).mp hq
  obtain ⟨happ,hq⟩ := (Bool.and_eq_true _ _).mp hq
  have hhash : Sample.destination.hash = truncatedHash Sample.platform
      (Sample.destination.nameHash ++ Sample.identity.hash) := by
    unfold Sample.destination
    exact Eq.refl (truncatedHash _ _)
  obtain ⟨raw,iface,packet,a,hrx,hp,-,-,ha,hholds,-,hreach⟩ := recalled_reaches
    Sample.exchangeCommutes Sample.cbcInverts hn hrec
  have hkey := List.all_eq_true.mp hq raw (List.mem_filterMap.mpr ⟨_,hrx,rfl⟩)
  simp only [hp,Option.all_some,Announce.check_iff.mpr ha,decide_eq_true_eq] at hkey
  obtain ⟨hkey,hname⟩ := hkey
  have hreach := hreach Sample.destination Sample.identity rfl rfl rfl Sample.identity_keyed
    (by simp [Sample.destination,Sample.hash_length]) hhash
  rw [hkey,hname,Sample.identity_keyed.hash] at hreach
  rcases hreach with ⟨hne,-⟩ | ⟨hne,-⟩ | hreach
  · exact absurd rfl hne
  · exact absurd rfl hne
  obtain ⟨p,r',-,hreach⟩ := hreach 1 _ rfl [7] (Sample.rng 6) (by decide) (by decide)
  obtain ⟨m,hreg,hcb,hlog⟩ : ∃ m : Node,
      m.destinations.lookup Sample.destination.hash = some Sample.destination ∧
      m.packetCallback Sample.destination.obj = some 5 ∧ m.log = [] :=
    ⟨{ Node.boot (Sample.rng 5) with
      destinations := (∅ : Table Destination).insert Sample.destination.hash Sample.destination
      packetCallback := fun _ => some 5 },Finmap.lookup_insert _,rfl,rfl⟩
  obtain ⟨q,u,hin,-,hu⟩ := hreach m 5 hreg hcb p.raw (.same _) quiet none
  refine ⟨n,rid,raw,packet,a,p,hrec,⟨iface,hrx⟩,hp,hholds,hkey,of_decide_eq_true happ,m,u,q,hin,?_⟩
  rw [hu fun _ _ => rfl]
  show _ :: _ :: m.log = _
  rw [hlog]

end RNS
