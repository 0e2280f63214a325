import RTReticulum.Relays
import RTReticulum.Simulation

/-! What reaches a node that a frame is meant for: DATA its destination's callback, an
announce the tables and the announce callback. -/
set_option autoImplicit false

namespace RNS

section
variable {P : Platform}

theorem inbound_local {n : Node} {raw : Bytes} {packet : Packet} {d : Destination} {pt : Bytes}
    (hp : Packet.unpack P raw = some packet) (ht : packet.packetType = .data)
    (hd : n.destinations.lookup packet.destinationHash = some d)
    (hdec : d.decrypt P packet.data = .ok pt) (hne : pt ≠ []) (env : Env) (iface : Option Nat) :
    n.inbound P env raw iface = .ok ((n.note (.rx raw iface)).receive env d pt packet) := by
  have hd' : (n.note (.rx raw iface)).destinations.lookup packet.destinationHash = some d := hd
  simp [Node.inbound,hp,ht,hd',hdec,hne]

theorem inbound_received {n : Node} {raw : Bytes} {packet : Packet} {d : Destination} {pt : Bytes}
    (hp : Packet.unpack P raw = some packet) (ht : packet.packetType = .data)
    (hd : n.destinations.lookup packet.destinationHash = some d)
    (hdec : d.decrypt P packet.data = .ok pt) (hne : pt ≠ []) (env : Env) (iface : Option Nat) :
    ∃ u, n.inbound P env raw iface = .ok u ∧
      Node.CallsOut env ((n.packetCallback d.obj).toList.map fun cb => .receive cb d pt packet)
        { n with log := .rx raw iface :: n.log } u := by
  refine ⟨_,inbound_local hp ht hd hdec hne env iface,?_⟩
  have hsame : (n.note (.rx raw iface)).packetCallback = n.packetCallback := rfl
  unfold Node.receive
  rw [hsame]
  cases n.packetCallback d.obj <;> exact Node.callsOut _ _ _

theorem pack_encrypted (hx : P.ExchangeCommutes) (hc : P.CbcInverts) {out : Destination}
    {sender id : Identity} {pt : Bytes} (htype : out.type = .single)
    (hout : out.identity = some sender) (hid : id.Keyed P)
    (hs : sender.Holds P id.getPublicKey) (hlen : pt.length ≤ Reticulum.mdu) (r : Rng) :
    ∃ p c r', (Packet.ofDestination out pt .data Context.none .broadcast).pack P r = .ok (p,r') ∧
      p.raw = Packet.frame (Packet.packFlags .header1 .unset .broadcast .single .data) 0 out.hash
        Context.none c ∧ id.decrypt P c = .ok pt := by
  obtain ⟨hkey,-,-,hhash⟩ := hid.holds hs
  have hpub : sender.pub.isSome := by rw [hs.pub]; rfl
  obtain ⟨c,r',henc⟩ := Identity.encrypt_ok (P := P) hpub (by rw [hkey,hid.pubBytes_length]) pt r
  have hout' : out.encrypt P pt r = .ok (c,r') := by
    simp only [Destination.encrypt,htype,hout,henc]
  obtain ⟨p,hpack,hraw⟩ := Packet.pack_data hout' Context.none .broadcast hlen
  rw [htype] at hraw
  exact ⟨p,c,r',hpack,hraw,Identity.decrypt_encrypt hx hc hid hpub hkey hhash henc⟩

theorem Runs.received {guard : Op → Node → Prop} {r : Rng} {n : Node}
    (h : Runs P guard (Node.boot r) n) {cb : Nat} {d : Destination} {pt : Bytes}
    {packet : Packet} (hrec : .receive cb d pt packet ∈ n.log) :
    d.decrypt P packet.data = .ok pt ∧ pt ≠ [] :=
  Runs.events (Q := fun e => ∀ cb d pt packet, e = .receive cb d pt packet →
      d.decrypt P packet.data = .ok pt ∧ pt ≠ [])
    (fun _ he _ _ _ _ h => by subst h; exact he) h (fun _ he => nomatch he) _ hrec cb d pt
    packet rfl

/-- An encrypted packet reaches the callback of the destination it is for, once and
unchanged, whatever relays did to its header; apart from the callback the node only logs
it. In any run a destination with private keys hands nothing to its callback that no token
under the derived key vouches for. -/
theorem data_delivered (hx : P.ExchangeCommutes) (hc : P.CbcInverts) {d : Destination}
    {id : Identity} (htype : d.type = .single) (hid : d.identity = some id)
    (hkeyed : id.Keyed P) (hhash : d.hash.length = 16) :
    (∀ (n : Node) (cb : Nat), n.destinations.lookup d.hash = some d →
      n.packetCallback d.obj = some cb →
      ∀ (out : Destination) (sender : Identity), out.type = .single → out.hash = d.hash →
      out.identity = some sender → sender.Holds P id.getPublicKey →
      ∀ (pt : Bytes) (r : Rng), 1 ≤ pt.length → pt.length ≤ 464 →
      ∃ p r', (Packet.ofDestination out pt .data Context.none .broadcast).pack P r = .ok (p,r') ∧
        ∀ raw, Packet.Rewritten p.raw raw → ∀ env iface, ∃ packet u,
          Packet.unpack P raw = some packet ∧ n.inbound P env raw iface = .ok u ∧
          Node.CallsOut env [.receive cb d pt packet] { n with log := .rx raw iface :: n.log } u) ∧
    ∀ n : Node, Reachable P n → ∀ cb pt packet, .receive cb d pt packet ∈ n.log → pt ≠ [] ∧
      ∃ k token, id.prv = some k ∧
        Identity.deriveToken P k (Bytes.left packet.data 32) id.hash = .ok token ∧
        token.Authentic P (Bytes.midFrom packet.data 32) ∧
        token.Opens P (Bytes.midFrom packet.data 32) pt := by
  constructor
  · intro n cb hreg hcb out sender houttype houthash hsender hpub pt r hpos hmdu
    obtain ⟨p,c,r',hpack,hraw,hdec⟩ := pack_encrypted hx hc houttype hsender hkeyed hpub hmdu r
    refine ⟨p,r',hpack,fun raw hrel env iface => ?_⟩
    rw [hraw,houthash,Packet.frame_cons] at hrel
    obtain ⟨header,hunpack,hcar⟩ := Packet.Rewritten.unpack (P := P) rfl hhash hrel
    have hne : pt ≠ [] := by rintro rfl; cases hpos
    have hdec' : d.decrypt P (Packet.parsed P header raw).data = .ok pt := by
      rw [hcar.data]
      simp only [Destination.decrypt,htype,hid]
      exact hdec
    obtain ⟨u,hin,hcalls⟩ := inbound_received hunpack (hcar.packetType.trans rfl)
      (hcar.destinationHash ▸ hreg) hdec' hne env iface
    rw [hcb] at hcalls
    exact ⟨_,u,hunpack,hin,hcalls⟩
  · rintro n ⟨r,hn⟩ cb pt packet hrec
    obtain ⟨hdec,hne⟩ := hn.received hrec
    obtain ⟨k,hk,-⟩ := hkeyed.prv
    simp only [Destination.decrypt,htype,hid] at hdec
    obtain ⟨-,token,htoken,hopens⟩ := Identity.decrypt_opens hk hdec hne
    exact ⟨hne,k,token,hk,htoken,hopens.authentic,hopens⟩

def Env.KeepsPaths (env : Env) : Prop := ∀ e n,
  (env e n).2.pathTable = n.pathTable ∧ (env e n).2.knownDestinations = n.knownDestinations

theorem Env.KeepsPaths.relayAnnounce {env : Env} (h : env.KeepsPaths) (packet : Packet)
    (a : Announce) (via : Option Nat) (n : Node) :
    (n.relayAnnounce env packet a via).pathTable = n.pathTable ∧
      (n.relayAnnounce env packet a via).knownDestinations = n.knownDestinations := by
  let Same (n m : Node) : Prop :=
    m.pathTable = n.pathTable ∧ m.knownDestinations = n.knownDestinations
  have trans : ∀ {n m k : Node}, Same n m → Same m k → Same n k :=
    fun h k => ⟨k.1.trans h.1,k.2.trans h.2⟩
  have lift : ∀ {n m : Node}, Reentrant.Does Same env n m → Same n m :=
    fun hd => hd.lift Same (fun _ => ⟨rfl,rfl⟩) trans id h
  have hcall : Same n (n.tellAnnounce env packet a) := by
    unfold Node.tellAnnounce
    split
    · exact ⟨rfl,rfl⟩
    · exact lift (tell_does ⟨rfl,rfl⟩)
  unfold Node.relayAnnounce
  simp only
  split
  · exact trans hcall (trans (m := (n.tellAnnounce env packet a).note (.relay packet)) ⟨rfl,rfl⟩
      (lift (broadcast_does (fun _ => True) (fun _ _ => trivial) (fun _ _ => ⟨rfl,rfl⟩) trivial)))
  · exact hcall

def AnnounceRelayed (P : Platform) (raw raw' : Bytes) : Prop :=
  ∃ n packet i, Reachable P n ∧ packet.raw = raw ∧
    .sendOutgoing i raw' (.announceRelay packet) ∈ n.log

theorem AnnounceRelayed.rewritten {raw raw' : Bytes}
    (h : Relation.ReflTransGen (AnnounceRelayed P) raw raw') : Packet.Rewritten raw raw' := by
  induction h with
  | refl => exact .same raw
  | tail _ hr ih =>
    obtain ⟨n,packet,i,⟨r,hn⟩,rfl,hi⟩ := hr
    obtain ⟨hraw,rfl,-⟩ := hn.announceHops hi
    exact ih.trans (withHops_rewritten hraw packet.hops)

theorem inbound_announce {n : Node} {raw : Bytes} {packet : Packet} {a : Announce}
    (hp : Packet.unpack P raw = some packet) (ht : packet.packetType = .announce)
    (ha : a.Genuine P packet) (hnew : packet.packetHash ∉ n.seenAnnounces) (env : Env)
    (iface : Option Nat) : n.inbound P env raw iface =
      .ok (((n.note (.rx raw iface)).believe packet a iface).relayAnnounce env packet a iface) := by
  have hnew' : packet.packetHash ∉ (n.note (.rx raw iface)).seenAnnounces := hnew
  simp only [Node.inbound,hp,ht,Node.processAnnounce_eq,if_neg hnew',Announce.check_iff.mpr ha]

/-- An announce of a destination made for an identity is accepted wherever it is new, after any
number of relays: `m` is the node with its tables written, `heard` after the one call of its
callback, and `u` after the relaying. -/
theorem announce_accepted (hv : P.VerifiesOwn) {obj : Nat} {id : Identity} (hkeyed : id.Keyed P)
    {appName : Bytes} {aspects : Option Bytes} {d : Destination} {r₀ r₁ : Rng}
    (hd : Destination.ofName P obj (some id) .dirIn .single appName aspects r₀ = .ok (d,r₁))
    {app : Bytes} (happ : app.length ≤ 316) (r : Rng) :
    ∃ raw r', announceFrame P d app r = .ok (raw,r') ∧
      ∀ raw', Relation.ReflTransGen (AnnounceRelayed P) raw raw' →
      ∃ packet announced, Packet.unpack P raw' = some packet ∧
        announced.getPublicKey = id.getPublicKey ∧
        ∀ (n : Node) (env : Env) (iface : Option Nat), packet.packetHash ∉ n.seenAnnounces →
        let path : PathEntry := ⟨d.hash,hopByte raw',iface⟩
        let known : KnownDestination := ⟨packet.packetHash,id.getPublicKey,app⟩
        let m : Node := { n with
          seenAnnounces := insert packet.packetHash n.seenAnnounces
          knownDestinations := n.knownDestinations.insert d.hash known
          pathTable := n.pathTable.insert d.hash path
          log := .rx raw' iface :: n.log }
        ∃ heard u, n.inbound P env raw' iface = .ok u ∧
          m.CallsOut env
            (n.onAnnounce.toList.map fun cb => .announce cb d.hash announced app packet) heard ∧
          (hopByte raw' < 128 → Node.CallsOut env
            (heard.copies (raw'.set 1 (hopByte raw'+1)) iface (.announceRelay packet))
            { heard with log := .relay packet :: heard.log } u) ∧
          (128 ≤ hopByte raw' → u = heard) ∧
          (env.KeepsPaths → u.pathTable.lookup d.hash = some path ∧
            u.knownDestinations.lookup d.hash = some known) := by
  obtain ⟨htype,hdir,hid,hnh,hhash⟩ := Destination.ofName_supplied hd
  obtain ⟨data,r',a,hframe,hpub,hkey,hdata,hgen⟩ :=
    Announce.announceFrame_genuine hv htype hdir hid hkeyed hnh hhash happ r
  refine ⟨_,r',hframe,fun raw' hrel => ?_⟩
  have hrew := AnnounceRelayed.rewritten hrel
  rw [Packet.frame_cons] at hrew
  obtain ⟨header,hunpack,hcar⟩ := Packet.Rewritten.unpack (P := P) rfl (by rw [hhash]; simp) hrew
  have hdest := hcar.destinationHash
  obtain ⟨hraw,hhops,hlen⟩ := Packet.unpack_some hunpack
  refine ⟨_,a.identity,hunpack,hpub,fun n env iface hnew => ?_⟩
  intro path known m
  have hm : (n.note (.rx raw' iface)).believe (Packet.parsed P header raw') a iface = m := by
    show Node.insertPath _ _ _ = m
    simp only [m,path,known,Node.insertPath,hdest,hkey,hdata]
    rfl
  have hin := inbound_announce hunpack (hcar.packetType.trans rfl) (hgen _ hdest hcar.data) hnew env
    iface
  have hbytes : 2 ≤ (Packet.parsed P header raw').raw.length := by
    rw [hraw]
    omega
  have hcalls : m.announceCalls (Packet.parsed P header raw') a =
      n.onAnnounce.toList.map fun cb =>
        .announce cb d.hash a.identity app (Packet.parsed P header raw') := by
    simp only [Node.announceCalls,hdest,hdata]
    rfl
  rw [hm,Node.relayAnnounce_eq env _ a iface m hbytes,hcalls,hraw,hhops] at hin
  have hkeep (henv : env.KeepsPaths) := henv.relayAnnounce (Packet.parsed P header raw') a iface m
  rw [Node.relayAnnounce_eq env _ a iface m hbytes,hcalls,hraw,hhops] at hkeep
  refine ⟨_,_,hin,Node.callsOut _ _ _,fun hlt => ?_,fun hge => ?_,fun henv => ?_⟩
  · have hlt' : raw'.getD 1 0 < pathfinderM := hlt
    simp only [if_pos hlt']
    exact Node.callsOut _ _ _
  · have hge' : ¬ raw'.getD 1 0 < pathfinderM := UInt8.not_lt.mpr hge
    simp only [if_neg hge']
  · obtain ⟨hpath,hknown⟩ := hkeep henv
    rw [hpath,hknown]
    exact ⟨Finmap.lookup_insert _,Finmap.lookup_insert _⟩

end

theorem data_delivered_sample : ∃ (n : Node) (p : Packet) (r' : Rng),
    (Packet.ofDestination Sample.outDestination (List.replicate 20 7) .data Context.none
      .broadcast).pack Sample.platform (Sample.rng 6) = .ok (p,r') ∧
    ∀ raw, Packet.Rewritten p.raw raw → ∀ env iface, ∃ packet u,
      n.inbound Sample.platform env raw iface = .ok u ∧ Node.CallsOut env
        [.receive 5 Sample.destination (List.replicate 20 7) packet]
        { n with log := .rx raw iface :: n.log } u := by
  obtain ⟨n,hreg,hcb⟩ : ∃ n : Node,
      n.destinations.lookup Sample.destination.hash = some Sample.destination ∧
      n.packetCallback Sample.destination.obj = some 5 :=
    ⟨{ Node.boot (Sample.rng 5) with
      destinations := (∅ : Table Destination).insert Sample.destination.hash Sample.destination
      packetCallback := fun _ => some 5 },Finmap.lookup_insert _,rfl⟩
  obtain ⟨p,r',hp,hrest⟩ := (data_delivered Sample.exchangeCommutes Sample.cbcInverts
    (d := Sample.destination) rfl rfl Sample.identity_keyed (truncatedHash_length _ _)).1 n 5 hreg
    hcb Sample.outDestination _ rfl rfl rfl (Identity.loadPublicKey_holds _ _) (List.replicate 20 7)
    (Sample.rng 6) (by decide) (by decide)
  refine ⟨n,p,r',hp,fun raw hraw env iface => ?_⟩
  obtain ⟨packet,u,-,hin,hu⟩ := hrest raw hraw env iface
  exact ⟨packet,u,hin,hu⟩

theorem announce_accepted_sample : ∃ d raw r',
    announceFrame Sample.platform d [0x2A] (Sample.rng 4) = .ok (raw,r') ∧
      ∃ packet announced, Packet.unpack Sample.platform raw = some packet ∧
        let n : Node := { Node.boot (Sample.rng 5) with
          interfaces := [7,8], onAnnounce := some 0 }
        ∃ u, n.inbound Sample.platform quiet raw (some 7) = .ok u ∧
          u.pathTable.lookup d.hash = some ⟨d.hash,hopByte raw,some 7⟩ ∧
          u.log = [.sendOutgoing 8 (raw.set 1 1) (.announceRelay packet),.relay packet,
            .announce 0 d.hash announced [0x2A] packet,.rx raw (some 7)] := by
  obtain ⟨d,r₁,hd⟩ : ∃ d r₁, Destination.ofName Sample.platform 0 (some Sample.identity) .dirIn
      .single [0x61] none (Sample.rng 9) = .ok (d,r₁) := ⟨_,_,rfl⟩
  have hlen : ([0x2A] : Bytes).length ≤ 316 := by decide
  obtain ⟨raw,r',hraw,h⟩ := announce_accepted Sample.verifiesOwn Sample.identity_keyed hd hlen
    (Sample.rng 4)
  obtain ⟨packet,announced,hp,-,hn⟩ := h raw .refl
  refine ⟨d,raw,r',hraw,packet,announced,hp,?_⟩
  intro n
  obtain ⟨heard,u,hin,⟨-,hheard⟩,hrelay,-,hkeep⟩ := hn n quiet (some 7) (Finset.notMem_empty _)
  have hhops : hopByte raw = 0 := by
    obtain ⟨data,rfl⟩ := announceFrame_eq hraw
    rfl
  rw [hhops] at hrelay ⊢
  have hu := (hrelay (by decide)).2 fun _ _ => rfl
  have hlog := hheard fun _ _ => rfl
  subst hlog
  have hkeep := hkeep fun _ _ => ⟨rfl,rfl⟩
  exact ⟨u,hin,hhops ▸ hkeep.1,hu ▸ rfl⟩

end RNS
