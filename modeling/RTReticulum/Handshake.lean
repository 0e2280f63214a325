import RTReticulum.Simulation
import RTReticulum.Updates

/-! The handshake of a link, frame by frame: request, proof, and the one session both ends
then hold. -/
set_option autoImplicit false

namespace RNS

/-- A node still has a link it asked for: in its table, and in the handshake. -/
structure Node.Awaits (n : Node) (a : Nat) (l l' : Link) : Prop where
  link : n.link? a = some l'
  later : l.Later l'
  handshake : l'.status = .handshake
  registered : n.links.lookup l.hash = some a

structure Link.Agrees (l r : Link) : Prop where
  hash : l.hash = r.hash
  key : l.sharedSessionKey = r.sharedSessionKey
  mtu : l.mtu = r.mtu

section
variable {P : Platform}

theorem inbound_request {n : Node} {raw : Bytes} {packet : Packet} {owner : Destination}
    {id : Identity} {k : Ed25519PrivateKey} (hp : Packet.unpack P raw = some packet)
    (ht : packet.packetType = .linkRequest)
    (hd : n.destinations.lookup packet.destinationHash = some owner)
    (hh : n.onLinkRequest = some .validateRequest)
    (hlen : packet.data.length = 64 ∨ packet.data.length = 67)
    (hid : owner.identity = some id) (hk : id.sigPrv = some k) :
    ∃ r : Link, r.Validated P owner packet.data packet ∧ ∃ rng, ∀ env iface,
      n.inbound P env raw iface =
        .ok (((((n.note (.rx raw iface)).newLink r rng).registerLink n.linkHeap.length).broadcast
          env (linkFrame .proof r.hash Context.lrproof
            (r.proofData P id k (packet.data.length = 67))) none
          (.proof n.linkHeap.length)).storeLink (some n.linkHeap.length)) := by
  refine ⟨_,Link.validating_validated owner packet.data packet n.rng,
    (Link.create owner false n.rng).2,fun env iface => ?_⟩
  have hd' : (n.note (.rx raw iface)).destinations.lookup packet.destinationHash = some owner := hd
  have hh' : (n.note (.rx raw iface)).onLinkRequest = some .validateRequest := hh
  simp only [Node.inbound,hp,ht,hd',hh',Node.linkRequest,Node.validateRequest,
    Link.validateRequest_eq hlen,hid,hk,ok_bind,pure_eq_ok]
  rfl

theorem inbound_lrproof {n : Node} {a : Nat} {raw : Bytes} {packet : Packet}
    (hp : Packet.unpack P raw = some packet) (ht : packet.packetType = .proof)
    (hctx : packet.context = Context.lrproof)
    (ha : n.links.lookup packet.destinationHash = some a) (env : Env) (iface : Option Nat) :
    n.inbound P env raw iface = (n.note (.rx raw iface)).onProof P env a packet := by
  have ha' : (n.note (.rx raw iface)).links.lookup packet.destinationHash = some a := ha
  simp only [Node.inbound,hp,ht,hctx,if_true,ha']

theorem onProof_proven {n : Node} {a : Nat} {l : Link} {id : Identity} {packet : Packet}
    (hl : n.link? a = some l) (hs : l.status = .handshake) (hi : l.initiator = true)
    (hlen : packet.data.length = 96 ∨ packet.data.length = 99)
    (hid : l.destination.identity = some id) (hproven : l.Proven P id packet.data) (env : Env) :
    let u := (n.note (.onProof a packet)).setLink a
      { l.proving P packet.data with status := .active }
    (∀ cb, l.onEstablished = some cb →
      n.onProof P env a packet = .ok (u.tell env (.established cb a))) ∧
    (l.onEstablished = none → n.onProof P env a packet = .ok u) := by
  have hgo : ¬ (l.status ≠ .handshake ∨ l.initiator = false) := by simp [hs,hi]
  have hest : (l.proving P packet.data).onEstablished = l.onEstablished := rfl
  constructor
  · intro cb hcb
    simp only [Node.onProof,hl,hgo,if_false,Link.onProof_eq hlen,hid,if_pos hproven,ok_bind,hest,
      hcb,pure_eq_ok]
  · intro hcb
    simp only [Node.onProof,hl,hgo,if_false,Link.onProof_eq hlen,hid,if_pos hproven,ok_bind,hest,
      hcb,pure_eq_ok]

theorem inbound_proof {n : Node} {raw : Bytes} {packet : Packet} {a : Nat} {l : Link}
    {id : Identity} (hp : Packet.unpack P raw = some packet) (ht : packet.packetType = .proof)
    (hctx : packet.context = Context.lrproof)
    (ha : n.links.lookup packet.destinationHash = some a) (hl : n.link? a = some l)
    (hs : l.status = .handshake) (hi : l.initiator = true)
    (hlen : packet.data.length = 96 ∨ packet.data.length = 99)
    (hid : l.destination.identity = some id) (hproven : l.Proven P id packet.data) (env : Env)
    (iface : Option Nat) :
    let u := ((n.note (.rx raw iface)).note (.onProof a packet)).setLink a
      { l.proving P packet.data with status := .active }
    (∀ cb, l.onEstablished = some cb →
      n.inbound P env raw iface = .ok (u.tell env (.established cb a))) ∧
    (l.onEstablished = none → n.inbound P env raw iface = .ok u) := by
  have hl' : (n.note (.rx raw iface)).link? a = some l := hl
  rw [inbound_lrproof hp ht hctx ha]
  exact onProof_proven hl' hs hi hlen hid hproven env

theorem Link.Agrees.later {l r l' : Link} (h : l.Agrees r) (hs : l.status = .active)
    (hl : l.Later l') : l'.Agrees r := by
  obtain ⟨-,hmtu,-,hkey,-⟩ := hl.settled (by simp [hs])
  exact ⟨hl.hash.trans h.hash,hkey.trans h.key,hmtu.trans h.mtu⟩

def Node.InSession (n : Node) (a : Nat) (r : Link) : Prop :=
  ∃ l, n.link? a = some l ∧ l.status = .active ∧ l.Agrees r

theorem Node.InSession.later {n m : Node} {a : Nat} {r : Link} (h : n.InSession a r)
    (hm : n.LinksLater m) : m.InSession a r := by
  obtain ⟨l,hl,hs,hr⟩ := h
  obtain ⟨l',hl',hlater⟩ := hm a l hl
  exact ⟨l',hl',hlater.active hs,hr.later hs hlater⟩

theorem broadcast_linksLater {env : Env} (henv : ∀ e m, Node.LinksLater m (env e m).2)
    (raw : Bytes) (skip : Option Nat) (origin : Origin) (n : Node) :
    n.LinksLater (n.broadcast env raw skip origin) :=
  (broadcast_does (U := Node.LinksLater) (fun _ => True) (fun _ _ => trivial)
    (fun _ _ => .of_link? fun _ => rfl) trivial).lift _ .refl .trans id henv

theorem Env.Wellbehaved.linksLater {guard : Op → Node → Prop} {env : Env}
    (h : env.Wellbehaved P guard) (e : Event) (m : Node) : m.LinksLater (env e m).2 :=
  (h e m).linksLater

/-- A responder's link that answers a request: its session is with the key of the request,
at the MTU the request advertises. -/
structure Link.Answers (P : Platform) (r l : Link) : Prop where
  hash : r.hash = l.hash
  key : r.sharedSessionKey = r.sessionKey P (l.ephX25519Pub P)
  mtu : r.mtu = Link.negotiatedMtu l.localMtu

theorem Link.Answers.later {r l l' : Link} (h : r.Answers P l) (hl : l.Later l') :
    r.Answers P l' :=
  ⟨h.hash.trans hl.hash.symm,by rw [h.key,ephX25519Pub,ephX25519Pub,hl.ephX25519Prv],
    by rw [h.mtu,hl.localMtu]⟩

theorem unpack_requestFrame {l : Link} (hhash : l.destination.hash.length = 16) {raw : Bytes}
    (hraw : Packet.Rewritten (l.requestFrame P) raw) :
    ∃ packet, Packet.unpack P raw = some packet ∧ packet.Carries
      (Packet.packFlags .header1 .unset .broadcast l.destination.type .linkRequest)
      l.destination.hash Context.none (l.requestData P) := by
  rw [Link.requestFrame,Packet.frame_cons] at hraw
  obtain ⟨header,hunpack,hcar⟩ := Packet.Rewritten.unpack (P := P)
    (Packet.packFlags_header1 _ _) hhash hraw
  exact ⟨_,hunpack,hcar⟩

theorem unpack_linkFrame {type : PacketType} {hash data raw : Bytes} {ctx : Context}
    (hhash : hash.length = 16) (hraw : Packet.Rewritten (linkFrame type hash ctx data) raw) :
    ∃ packet, Packet.unpack P raw = some packet ∧
      packet.Carries (Packet.packFlags .header1 .unset .broadcast .link type) hash ctx data := by
  rw [linkFrame,Packet.frame_cons] at hraw
  obtain ⟨header,hunpack,hcar⟩ := Packet.Rewritten.unpack (P := P)
    (Packet.packFlags_header1 _ _) hhash hraw
  exact ⟨_,hunpack,hcar⟩

/-- Both ends derive the same id from a request, and what is validated answers it. -/
theorem Link.Validated.answers {owner : Destination} {packet : Packet} {r l : Link}
    (h : r.Validated P owner packet.data packet) (hl : l.hash = l.requestId P)
    (hcar : packet.Carries
      (Packet.packFlags .header1 .unset .broadcast l.destination.type .linkRequest)
      l.destination.hash Context.none (l.requestData P)) : r.Answers P l where
  hash := by
    have hpart := hcar.hashable
    rw [requestData] at hpart
    rw [h.hash,hcar.data,requestData,linkIdFromLrPacket_eq hpart (by simp),hl,requestId]
  key := by rw [h.key,hcar.data,l.requestData_left]
  mtu := by rw [h.mtu,hcar.data,l.requestData_mtu]

theorem Link.Answers.agrees (hx : P.ExchangeCommutes) {r l : Link} (h : r.Answers P l)
    (hmtu : l.mtu = if l.localMtu ≠ 0 then l.localMtu else 500) (id : Identity)
    (k : Ed25519PrivateKey) :
    ({ l.proving P (r.proofData P id k (l.localMtu ≠ 0)) with status := .active } : Link).Agrees
      r := by
  obtain ⟨-,hmid,-⟩ := r.proofData_fields (P := P) id k (l.localMtu ≠ 0)
  refine ⟨h.hash.symm,?_,(proofData_mtu id k hmtu h.mtu).trans h.mtu.symm⟩
  show l.sessionKey P (Bytes.mid (r.proofData P id k (l.localMtu ≠ 0)) 64 32) = _
  rw [hmid,h.key,sessionKey_comm hx h.hash.symm]

theorem request_answered {d : Destination} {id : Identity} {l : Link} {out : Destination}
    {oe op : Option Nat} {advertised : UInt32} (hid : d.identity = some id)
    (hkeyed : id.Keyed P) (hhash : d.hash.length = 16) (houthash : out.hash = d.hash)
    (hl : l.Requested P out oe op advertised) {raw : Bytes}
    (hraw : Packet.Rewritten (l.requestFrame P) raw) {m : Node}
    (hd : m.destinations.lookup d.hash = some d) (hh : m.onLinkRequest = some .validateRequest) :
    ∃ (r : Link) (rng : Rng) (k : Ed25519PrivateKey), id.sigPrv = some k ∧ r.status = .active ∧
      r.Answers P l ∧ ∀ env iface, m.inbound P env raw iface =
        .ok (((((m.note (.rx raw iface)).newLink r rng).registerLink m.linkHeap.length).broadcast
          env (linkFrame .proof r.hash Context.lrproof (r.proofData P id k (l.localMtu ≠ 0))) none
          (.proof m.linkHeap.length)).storeLink (some m.linkHeap.length)) := by
  obtain ⟨k,hk,-⟩ := hkeyed.sigPrv
  have hdest : l.destination.hash = d.hash := by rw [hl.destination,houthash]
  obtain ⟨packet,hunpack,hcar⟩ := unpack_requestFrame (by rw [hdest,hhash]) hraw
  have hlen := l.requestData_length (P := P)
  rw [← hcar.data] at hlen
  obtain ⟨r,hr,rng,hin⟩ := inbound_request hunpack
    (hcar.packetType.trans (Packet.packFlags_packetType _ _))
    (by rw [hcar.destinationHash,hdest,hd]) hh hlen hid hk
  refine ⟨r,rng,k,hk,hr.status,hr.answers hl.hash hcar,fun env iface => ?_⟩
  rw [hin env iface,hcar.data]
  simp only [l.requestData_length_iff]

/-- What an initiator makes of the proof it is answered with: the session of the
responder, and one call of its callback. -/
theorem proof_accepted (hx : P.ExchangeCommutes) (hv : P.VerifiesOwn) {out : Destination}
    {id peer : Identity} {oe op : Option Nat} {advertised : UInt32} {l r : Link}
    {k : Ed25519PrivateKey} (hl : l.Requested P out oe op advertised)
    (hout : out.identity = some peer) (hpeer : peer.Holds P id.getPublicKey)
    (hkeyed : id.Keyed P) (hk : id.sigPrv = some k) (hr : r.Answers P l) {raw : Bytes}
    (hraw : Packet.Rewritten (linkFrame .proof r.hash Context.lrproof
      (r.proofData P id k (l.localMtu ≠ 0))) raw) {n : Node} {a : Nat} {l' : Link}
    (hn : n.Awaits a l l') (env : Env) (iface : Option Nat) :
    ∃ (u : Node) (packet : Packet), u.InSession a r ∧
      u.log = .onProof a packet :: .rx raw iface :: n.log ∧
      (∀ cb, l'.onEstablished = some cb →
        n.inbound P env raw iface = .ok (u.tell env (.established cb a))) ∧
      (l'.onEstablished = none → n.inbound P env raw iface = .ok u) := by
  obtain ⟨k',hk',hpub⟩ := hkeyed.sigPrv
  cases hk.symm.trans hk'
  obtain ⟨-,hsigPub,hsigPubBytes,-⟩ := hkeyed.holds hpeer
  have hlen : r.hash.length = 16 := by rw [hr.hash,hl.hash]; exact truncatedHash_length _ _
  obtain ⟨packet,hunpack,hcar⟩ := unpack_linkFrame hlen hraw
  -- The link is still as it was when the request went out.
  have hsame : l'.mtu = l.mtu := by
    rcases hn.later.session with h | ⟨-,-,h⟩
    · exact h.2.1
    · rcases h with h | h <;> simp [hn.handshake] at h
  have hr' := hr.later hn.later
  have hproven : l'.Proven P peer packet.data := by
    rw [hcar.data]
    exact r.proven_proofData id k _ hv hr'.hash.symm (by rw [hsigPub,hpub]) hsigPubBytes
  have hsize : packet.data.length = 96 ∨ packet.data.length = 99 := by
    rw [hcar.data,Link.proofData_length]
    split <;> simp
  have hreg : n.links.lookup packet.destinationHash = some a := by
    rw [hcar.destinationHash,hr.hash]; exact hn.registered
  obtain ⟨hsome,hnone⟩ := inbound_proof hunpack
    (hcar.packetType.trans (Packet.packFlags_packetType _ _)) hcar.context hreg hn.link
    hn.handshake (hn.later.initiator.trans hl.initiator) hsize
    (by rw [hn.later.destination,hl.destination,hout]) hproven env iface
  refine ⟨_,packet,⟨{ l'.proving P packet.data with status := .active },?_,rfl,?_⟩,
    rfl,hsome,hnone⟩
  · have hlink : ((n.note (.rx raw iface)).note (.onProof a packet)).link? a = some l' := hn.link
    rw [Node.link?_setLink hlink,if_pos rfl]
  · have hmtu : l'.mtu = if l'.localMtu ≠ 0 then l'.localMtu else 500 := by
      rw [hsame,hl.mtu,hn.later.localMtu,hl.localMtu]
    rw [hcar.data,← hn.later.localMtu]
    exact hr'.agrees hx hmtu id k

/-- A request that reaches its responder, and the proof of it that reaches the initiator
while that waits for it, make one session, of the MTU that was advertised. Request and proof go
out on every interface, and the callback of the initiator is called once. The frames may be
rewritten on the way. -/
theorem handshake_completes (hx : P.ExchangeCommutes) (hv : P.VerifiesOwn)
    {d out : Destination} {id peer : Identity} (hid : d.identity = some id)
    (hkeyed : id.Keyed P) (hhash : d.hash.length = 16) (houthash : out.hash = d.hash)
    (hout : out.identity = some peer) (hpeer : peer.Holds P id.getPublicKey)
    (advertised : UInt32) (n : Node) (oe op : Option Nat) :
    ∃ (l : Link) (asked : Node), l.onEstablished = oe ∧
      asked.Awaits n.linkHeap.length l l ∧ asked.log = n.log ∧
      (∀ env, ∃ u, n.request P env out oe op advertised = .ok (n.linkHeap.length,u) ∧
        asked.CallsOut env (n.interfaces.map fun i =>
          .sendOutgoing i (l.requestFrame P) (.request n.linkHeap.length)) u) ∧
      ∀ raw, Packet.Rewritten (l.requestFrame P) raw → ∀ m : Node,
      m.destinations.lookup d.hash = some d → m.onLinkRequest = some .validateRequest →
      ∃ (r : Link) (data : Bytes), r.sharedSessionKey.length = 64 ∧
        r.mtu.toNat = (if advertised = 0 then 500 else advertised.toNat % 2^21) ∧
        r.hash = l.hash ∧
        let proof := linkFrame .proof l.hash Context.lrproof data
        (∀ env iface, env.Wellbehaved P (fun _ _ => True) → ∃ m₀ m₁ u : Node,
            m₀.log = .rx raw iface :: m.log ∧ m₀.links.lookup l.hash = some m.linkHeap.length ∧
            m₀.CallsOut env (m.interfaces.map fun i =>
              .sendOutgoing i proof (.proof m.linkHeap.length)) m₁ ∧
            m.inbound P env raw iface = .ok u ∧ u = m₁.storeLink (some m.linkHeap.length) ∧
            u.log = m₁.log ∧ u.InSession m.linkHeap.length r ∧
            u.links.lookup l.hash = some m.linkHeap.length) ∧
        ∀ raw', Packet.Rewritten proof raw' →
        ∀ (n' : Node) (l' : Link), n'.Awaits n.linkHeap.length l l' →
        ∀ env iface, env.Wellbehaved P (fun _ _ => True) →
        ∃ (proven : Node) (packet : Packet) (u : Node), proven.InSession n.linkHeap.length r ∧
          proven.log = .onProof n.linkHeap.length packet :: .rx raw' iface :: n'.log ∧
          n'.inbound P env raw' iface = .ok u ∧ u.InSession n.linkHeap.length r ∧
          proven.CallsOut env
            (l'.onEstablished.toList.map fun cb => .established cb n.linkHeap.length) u := by
  obtain ⟨l,rng,hreq,hl⟩ := Link.request_ok (P := P) out oe op advertised n.rng
  have hlink : (n.newLink l rng).link? n.linkHeap.length = some l := by
    rw [Node.link?_newLink,if_pos rfl]
  refine ⟨l,(n.newLink l rng).registerLink n.linkHeap.length,hl.onEstablished,
    ⟨by rw [Node.link?_registerLink,hlink],.refl l,hl.status,Node.registerLink_lookup hlink⟩,
    Node.registerLink_log _ _,fun env => ⟨_,?_,Node.callsOut _ _ _⟩,?_⟩
  · have hcopies := Node.copies_all (l.requestFrame P) (.request n.linkHeap.length)
      ((n.newLink l rng).registerLink n.linkHeap.length)
    rw [Node.registerLink_interfaces] at hcopies
    simp only [Node.request,hreq,ok_bind,pure_eq_ok,Node.broadcast_eq,hcopies]
    rfl
  intro raw hraw m hd hh
  obtain ⟨r,rng',k,hk,hstatus,hr,hin⟩ := request_answered hid hkeyed hhash houthash hl hraw hd hh
  have hrhash := hr.hash
  refine ⟨r,r.proofData P id k (l.localMtu ≠ 0),by rw [hr.key,Link.sessionKey_length],?_,hrhash,
    ?_⟩
  swap
  rw [← hrhash]
  refine ⟨fun env iface henv => ?_,?_⟩
  · let m₀ := ((m.note (.rx raw iface)).newLink r rng').registerLink m.linkHeap.length
    have hlink' : ((m.note (.rx raw iface)).newLink r rng').link? m.linkHeap.length = some r := by
      rw [Node.link?_newLink]; exact if_pos rfl
    have hsession : m₀.InSession m.linkHeap.length r :=
      ⟨r,by rw [Node.link?_registerLink,hlink'],hstatus,rfl,rfl,rfl⟩
    have hcopies (frame : Bytes) := Node.copies_all frame (.proof m.linkHeap.length) m₀
    simp only [m₀,Node.registerLink_interfaces] at hcopies
    have hafter := hsession.later (broadcast_linksLater henv.linksLater
      (linkFrame .proof r.hash Context.lrproof (r.proofData P id k (l.localMtu ≠ 0))) none
      (.proof m.linkHeap.length) m₀)
    have hin := hin env iface
    rw [Node.broadcast_eq,hcopies] at hin hafter
    have hafter' := hafter
    obtain ⟨r',hr',-,hagrees⟩ := hafter'
    refine ⟨m₀,_,_,Node.registerLink_log _ _,Node.registerLink_lookup hlink',
      Node.callsOut _ _ _,hin,rfl,Node.registerLink_log _ _,
      hafter.later (.of_link? fun _ => Node.link?_registerLink _ _ _),?_⟩
    have hlookup := Node.registerLink_lookup hr'
    rwa [hagrees.hash] at hlookup
  · intro raw' hraw' n' l' hn' env iface henv
    obtain ⟨u,packet,hu,hlog,hsome,hnone⟩ := proof_accepted hx hv hl hout hpeer hkeyed hk hr
      hraw' hn' env iface
    cases hcb : l'.onEstablished with
    | none => exact ⟨u,packet,_,hu,hlog,hnone hcb,hu,Node.callsOut _ _ _⟩
    | some cb => exact ⟨u,packet,_,hu,hlog,hsome cb hcb,
        hu.later (tell_linksLater henv.linksLater _ u),Node.callsOut _ _ _⟩
  · rw [hr.mtu,Link.toNat_negotiatedMtu,hl.localMtu]

end

theorem quiet_wellbehaved (P : Platform) (guard : Op → Node → Prop) :
    quiet.Wellbehaved P guard := quiet_runs P guard

theorem handshake_completes_sample : ∃ (l r : Link) (proof : Bytes) (asked answered u : Node)
    (packet : Packet), r.mtu.toNat = 600 ∧ r.hash = l.hash ∧
    asked.log = [.sendOutgoing 0 (l.requestFrame Sample.platform) (.request 0)] ∧
    answered.log = [.sendOutgoing 0 proof (.proof 0),.rx (l.requestFrame Sample.platform) none] ∧
    u.InSession 0 r ∧ u.log = [.established 4 0,.onProof 0 packet,.rx proof none,
      .sendOutgoing 0 (l.requestFrame Sample.platform) (.request 0)] := by
  obtain ⟨m,hd,hh,hm,hlog,hheap⟩ : ∃ m : Node,
      m.destinations.lookup Sample.destination.hash = some Sample.destination ∧
      m.onLinkRequest = some .validateRequest ∧ m.interfaces = [0] ∧ m.log = [] ∧
      m.linkHeap.length = 0 :=
    ⟨{ Node.boot (Sample.rng 3) with
      interfaces := [0]
      destinations := (∅ : Table Destination).insert Sample.destination.hash Sample.destination
      onLinkRequest := some .validateRequest },Finmap.lookup_insert _,rfl,rfl,rfl,rfl⟩
  let n : Node := { Node.boot (Sample.rng 2) with interfaces := [0] }
  obtain ⟨l,start,hoe,hawaits,hstart,hasks,h⟩ := handshake_completes Sample.exchangeCommutes
    Sample.verifiesOwn (d := Sample.destination) rfl Sample.identity_keyed
    (truncatedHash_length _ _) (rfl : Sample.outDestination.hash = _) rfl
    (Identity.loadPublicKey_holds _ _) 600 n (some 4) none
  obtain ⟨asked,-,-,hasked⟩ := hasks quiet
  have hasked := hasked fun _ _ => rfl
  obtain ⟨r,data,-,hmtu,hhash,hanswers,hproof⟩ := h _ (.same _) m hd hh
  obtain ⟨m₀,m₁,answered,hm₀,-,⟨-,hm₁⟩,-,-,hlog₁,-⟩ := hanswers quiet none (quiet_wellbehaved _ _)
  have hm₁ := hm₁ fun _ _ => rfl
  have hlater : asked.Awaits n.linkHeap.length l l := by
    rw [hasked]
    exact ⟨hawaits.link,hawaits.later,hawaits.handshake,hawaits.registered⟩
  obtain ⟨proven,packet,u,-,hproven,-,hu,-,hcalls⟩ := hproof _ (.same _) asked l hlater quiet none
    (quiet_wellbehaved _ _)
  have hasklog : asked.log = [.sendOutgoing 0 (l.requestFrame Sample.platform) (.request 0)] := by
    rw [hasked,hstart]
    rfl
  refine ⟨l,r,linkFrame .proof l.hash Context.lrproof data,asked,answered,u,packet,hmtu,hhash,
    hasklog,?_,hu,?_⟩
  · rw [hlog₁,hm₁,hm₀,hm,hlog,hheap]
    rfl
  · rw [hcalls fun _ _ => rfl,hproven,hasklog,hoe]
    rfl

end RNS
